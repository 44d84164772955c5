-- The texts of certificate serials. A revocation is recorded under the text that the admin
-- API was given, and every lookup uses the text of `SerialHex`. The API also accepts a text
-- with leading zeroes, which is the text of no certificate.
import PromFleet.RevocationLaws
import PromFleet.RegistrySweep
import Mathlib.Tactic.IntervalCases

namespace prom_fleet.revocation

open interleave store map_range hub List Prog

/-! ## Hexadecimal texts -/

def digitValue (c : Char) : Nat := if c ≤ '9' then c.toNat - 48 else c.toNat - 87

/-- The number that a text denotes in base 16. -/
def hexValue (s : String) : Nat := s.toList.foldl (fun n c => 16 * n + digitValue c) 0

theorem digitChar_digitValue {c : Char} (h : hexDigit c = true) :
    Nat.digitChar (digitValue c) = c ∧ digitValue c < 16 ∧ (c ≠ '0' → 0 < digitValue c) := by
  have hnat : c = Char.ofNat c.toNat := (Char.ofNat_toNat c).symm
  have hrange : (48 ≤ c.toNat ∧ c.toNat ≤ 57) ∨ (97 ≤ c.toNat ∧ c.toNat ≤ 102) := by
    simpa [hexDigit, Char.le_def, UInt32.le_iff_toNat_le] using h
  rcases hrange with ⟨hlo, hhi⟩ | ⟨hlo, hhi⟩
  · interval_cases hn : c.toNat <;> subst hnat <;> decide
  · interval_cases hn : c.toNat <;> subst hnat <;> decide

/-- The digits of a number that begins with no zero are the text it was read from. -/
theorem toDigits_foldl {l : List Char} (hhex : ∀ c ∈ l, hexDigit c = true) (hne : l ≠ [])
    (hhead : l.head? ≠ some '0') : 0 < l.foldl (fun n c => 16 * n + digitValue c) 0 ∧
      Nat.toDigits 16 (l.foldl (fun n c => 16 * n + digitValue c) 0) = l := by
  induction l using List.reverseRecOn with
  | nil => exact absurd rfl hne
  | append_singleton l c ih =>
    obtain ⟨hchar, hlt, hpos⟩ := digitChar_digitValue (hhex c (by simp))
    rw [foldl_append, foldl_cons, foldl_nil]
    by_cases hl : l = []
    · subst hl
      have hc : c ≠ '0' := by simpa using hhead
      have hd : Nat.toDigits 16 (digitValue c) = [c] := by
        rw [Nat.toDigits_of_lt_base hlt, hchar]
      simpa [hd] using hpos hc
    · have hhead' : l.head? ≠ some '0' := by
        rwa [List.head?_append_of_ne_nil _ hl] at hhead
      obtain ⟨hv, hdigits⟩ := ih (fun x hx => hhex x (by simp [hx])) hl hhead'
      refine ⟨by omega, ?_⟩
      rw [← Nat.toDigits_append_toDigits (by decide) hv hlt, hdigits, Nat.toDigits_of_lt_base hlt,
        hchar]

theorem serialHex_hexValue {s : String} (hvalid : validSerial s = true)
    (hcanon : s.toList.head? ≠ some '0') : 0 < hexValue s ∧ s = serialHex (hexValue s) := by
  simp only [validSerial, Bool.and_eq_true, all_eq_true, any_eq_true] at hvalid
  obtain ⟨⟨⟨hhex, _⟩, _⟩, c, hc, _⟩ := hvalid
  obtain ⟨hpos, hdigits⟩ := toDigits_foldl hhex (ne_nil_of_mem hc) hcanon
  refine ⟨hpos, ?_⟩
  rw [serialHex, hexValue, hdigits, String.ofList_toList]

/-- The text of a serial number begins with no zero. -/
theorem head_toDigits {n : Nat} (h : 0 < n) : (Nat.toDigits 16 n).head? ≠ some '0' := by
  induction n using Nat.strongRecOn with
  | _ n ih =>
    by_cases hlt : n < 16
    · rw [Nat.toDigits_of_lt_base hlt]
      simp
      omega
    · rw [Nat.toDigits_of_base_le (by decide) (not_lt.mp hlt),
        head?_append_of_ne_nil _ (Nat.toDigits_ne_nil)]
      exact ih (n / 16) (by omega) (by omega)

/-! ## The calls, each alone -/

section Alone

variable {ρ : Type} [DecidableEq ρ] {w : World ρ}

/-- A revocation that succeeds leaves an entry under the text of its request. -/
theorem handleRevokeCert_alone (cfg : Config) (req : RevokeRequest) :
    Holds machine (alone _ Env (World ρ)) () (handleRevokeCert cfg req)
      (fun x w' => x = .noContent →
        ∃ rc, w'.2.1.doc.revokedCerts.lookup req.serial = some rc ∧ rc.serial = req.serial) w := by
  simp only [handleRevokeCert, clock, revokeCert, inl_call, call_bind]
  split
  · exact fun _ _ _ h => by cases h
  split
  · exact fun _ _ _ h => by cases h
  split
  · exact fun _ _ _ h => by cases h
  rintro t rfl - e₁ - now u -
  refine ⟨trivial, trivial, ?_⟩
  dsimp only
  generalize (if isZero req.notAfter = true then now + cfg.spokeCertTTL
    else req.notAfter) = notAfter
  split
  · exact fun _ _ _ h => by cases h
  rintro t rfl - e₂ - stored v hact
  refine ⟨trivial, trivial, ?_⟩
  cases stored with
  | false => exact fun _ _ _ h => by cases h
  | true =>
    rintro t rfl - -
    obtain ⟨b, hb, hhub⟩ := revoked_of_act (act_inl hact).2.2
    obtain ⟨_, _, hstate⟩ := revokeCert_cases hb
    rw [hhub, hstate]
    exact ⟨_, Finmap.lookup_insert _, rfl⟩

theorem isRevoked_alone (p : ρ) {serial : String} (hin : serial ∈ (w.2.2 p).serials) :
    Holds machine (alone _ Env (World ρ)) () (isRevoked (keeper p) serial)
      (fun b _ => b = true) w := by
  simp only [isRevoked, hub.peek, hub.time, inr_call, call_bind]
  rintro t rfl - e₁ - c u hact
  refine ⟨trivial, trivial, ?_⟩
  have hc : c = w.2.2 p := (congrArg Prod.fst (Option.some.inj (act_inr hact).2.2.2)).symm
  rintro t rfl - e₂ - now v -
  refine ⟨trivial, trivial, ?_⟩
  have hcontains : c.serials.contains serial = true := by
    rw [hc]
    exact contains_iff_mem.mpr hin
  simp only [hcontains, Bool.true_or, if_true]
  exact fun _ _ _ => rfl

theorem verifyChainAllowingExpiry_alone (req : RenewRequest) (grace : Int) :
    Holds machine (alone _ Env (World ρ)) () (verifyChainAllowingExpiry req grace)
      (fun _ w' => w'.2.1 = w.2.1) w := by
  have hclock : ∀ {t u : World ρ} {e : Env} {now : Int},
      machine.act () (.inl HubOp.clock) e t = some (now, u) → u.2.1 = t.2.1 := by
    intro t u e now hact
    exact (congrArg Prod.snd (Option.some.inj (act_inl hact).2.2)).symm
  simp only [verifyChainAllowingExpiry, clock, inl_call, call_bind]
  rintro t rfl - e₁ - now u hact
  refine ⟨trivial, trivial, ?_⟩
  dsimp only
  split
  · rintro t rfl -
    exact hclock hact
  rintro t rfl - e₂ - now' v hact'
  have hsame : v.2.1 = w.2.1 := (hclock hact').trans (hclock hact)
  refine ⟨trivial, trivial, ?_⟩
  dsimp only
  split
  · rintro t rfl -
    exact hsame
  split
  · rintro t rfl -
    exact hsame
  · rintro t rfl -
    exact hsame

theorem handleRenew_alone (cfg : Config) (req : RenewRequest) {rc : RevokedCert}
    (hentry : w.2.1.doc.revokedCerts.lookup req.leaf.serial = some rc)
    (hserial : rc.serial = req.leaf.serial) :
    Holds machine (alone _ Env (World ρ)) () (handleRenew cfg req)
      (fun x _ => ∀ cert, x ≠ .issued cert) w := by
  simp only [handleRenew, listRevokedCerts, sign, inl_call, call_bind]
  split
  · exact fun _ _ _ _ h => by cases h
  refine (verifyChainAllowingExpiry_alone req cfg.renewGrace).seq trivial fun verified u _ hu => ?_
  split
  · exact fun _ _ _ _ h => by cases h
  rintro t rfl - e - a v hact
  refine ⟨trivial, trivial, ?_⟩
  cases a with
  | error err => exact fun _ _ _ _ h => by cases h
  | ok entries =>
    have hlisted : (entries.map fun x => x.serial).contains req.leaf.serial = true := by
      rw [list_of_document (act_inl hact).2.2, hu, contains_iff_mem]
      exact mem_map.mpr ⟨rc, mem_listRevokedCerts.mpr ⟨_, hentry⟩, hserial⟩
    simp only [hlisted, if_true]
    exact fun _ _ _ _ h => by cases h

end Alone

/-! ## The law -/

/-- The text is the text of the number that it denotes. Once it has been revoked, each lookup of a
certificate with that number finds the entry. -/
def NamesItsCertificate (ρ : Type) [DecidableEq ρ] (s : String) : Prop :=
  0 < hexValue s ∧ s = serialHex (hexValue s) ∧
  ∀ (cfg : Config) (req : RevokeRequest) (w : World ρ) (ls : List (Unit × Env))
    (c : Conf (Either HubAns (@CacheAns ρ)) Unit (World ρ) RevokeAnswer), req.serial = s →
    run machine (solo (handleRevokeCert cfg req) w) ls = some c →
    c.thread () = .done .noContent →
  ∀ cert : Certificate, cert.serialNumber = hexValue s →
    ∃ rc, c.shared.2.1.doc.revokedCerts.lookup cert.serial = some rc ∧
    (cert.notAfter ≤ rc.notAfter →
      -- the handshake, with a cache that was filled from this document in time
      (∀ (w₁ : World ρ) (p : ρ) (order : Range String RevokedCert) (t : Int)
        (ls₁ : List (Unit × Env))
        (c₁ : Conf (Either HubAns (@CacheAns ρ)) Unit (World ρ) Bool) (b : Bool),
        t ≤ cert.notAfter →
        (w₁.2.2 p).serials = liveSerials t (store.listRevokedCerts order c.shared.2.1.doc) →
        run machine (solo (isRevoked (keeper p) cert.serial) w₁) ls₁ = some c₁ →
        c₁.thread () = .done b → b = true) ∧
      -- the renewal
      (∀ (cfg₁ : Config) (req₁ : RenewRequest) (ls₁ : List (Unit × Env))
        (c₁ : Conf (Either HubAns (@CacheAns ρ)) Unit (World ρ) RenewAnswer) (a : RenewAnswer),
        req₁.leaf = cert → run machine (solo (handleRenew cfg₁ req₁) c.shared) ls₁ = some c₁ →
        c₁.thread () = .done a → ∀ new, a ≠ .issued new) ∧
      -- the sweep of the live sessions
      ∀ (ι : Type) [DecidableEq ι] (cfg₁ : registry.Config) (t₀ : Int)
        (calls : ι → registry.Request) (ls₁ : List (ι × registry.Env))
        (c₁ : Conf registry.RegAns ι (Int × registry.World ι) registry.Reply) (i : ι)
        (ids : List String),
        run (registry.regMachine cfg₁) (registry.system cfg₁ t₀ calls) ls₁ = some c₁ →
        calls i = .closeRevoked [s] → c₁.thread i = .done (.closed ids) →
        ∃ snap ∈ registry.operations cfg₁ t₀ calls ls₁ i, snap.op = .candidates ∧
          ∀ id key ref sl, snap.before.2.reg.occupant id key = some ref →
            snap.before.2.reg.heap[ref]? = some sl → sl.certSerial = cert.serial →
            ∀ id' key', c₁.shared.2.reg.occupant id' key' ≠ some ref)

/-- A text that is accepted names its certificate exactly if it begins with no zero. -/
theorem an_accepted_serial_names_its_certificate_iff_canonical (ρ : Type) [DecidableEq ρ]
    (s : String) (hvalid : validSerial s = true) :
    NamesItsCertificate ρ s ↔ s.toList.head? ≠ some '0' := by
  constructor
  · rintro ⟨hpos, hhex, -⟩
    rw [hhex, serialHex, String.toList_ofList]
    exact head_toDigits hpos
  intro hcanon
  obtain ⟨hpos, hhex⟩ := serialHex_hexValue hvalid hcanon
  refine ⟨hpos, hhex, ?_⟩
  intro cfg req w ls c hreq hrun hdone cert hnumber
  have hserial : cert.serial = s := by
    rw [Certificate.serial, hnumber]
    exact hhex.symm
  obtain ⟨rc, hentry, hrc⟩ := done_of_solo (handleRevokeCert_alone cfg req) hrun hdone rfl
  rw [hreq, ← hserial] at hentry hrc
  refine ⟨rc, hentry, fun hlong => ⟨?_, ?_, ?_⟩⟩
  · intro w₁ p order t ls₁ c₁ b ht hcache hrun₁ hdone₁
    have hrecorded : Recorded cert.serial cert.notAfter c.shared.2.1.doc :=
      ⟨rc, hentry, hrc, certLive_iff.mpr (.inr hlong)⟩
    have hin : cert.serial ∈ (w₁.2.2 p).serials := by
      rw [hcache]
      exact hrecorded.mem_liveSerials order ht
    exact done_of_solo (isRevoked_alone p hin) hrun₁ hdone₁
  · intro cfg₁ req₁ ls₁ c₁ a hleaf hrun₁ hdone₁
    rw [← hleaf] at hentry hrc
    exact done_of_solo (handleRenew_alone cfg₁ req₁ hentry hrc) hrun₁ hdone₁
  · intro ι _ cfg₁ t₀ calls ls₁ c₁ i ids hrun₁ hcall hdone₁
    obtain ⟨snap, hsnap, hop, hgone⟩ :=
      registry.closeRevoked_gone hrun₁ hcall (cons_ne_nil _ _) hdone₁
    refine ⟨snap, hsnap, hop, fun id key ref sl hocc hsl hsame => ?_⟩
    have hne : s ≠ "" := by
      rintro rfl
      cases hvalid
    refine hgone id key ref sl hocc hsl ?_ ?_
    · rw [hsame, hserial]
      exact hne
    · rw [hsame, hserial]
      exact mem_singleton_self s

/-! ## A leading zero -/

def revokeOf (serial : String) : RevokeRequest :=
  { guarded := true, serial := serial, bodyOk := true, notAfter := 0, reason := "lost" }

/-- The spoke whose certificate has the serial number ten asks for a new one. -/
def renewOf : RenewRequest :=
  { guarded := true, nonceOk := true, leaf := spokeCert, trusted := true, trustedThen := true
    csrOk := true, proven := true }

def stepsOn (n : Int) (steps : Nat) : List (Unit × Env) :=
  List.replicate steps ((), { now := days n, up := true, rootNotAfter := days 3650
                              serialNumber := 11, visits := ascending })

theorem an_accepted_serial_names_its_certificate_ten : validSerial "a" = true ∧
    ∃ c : Conf (Either HubAns (@CacheAns Bool)) Unit (World Bool) RevokeAnswer,
      run machine (solo (handleRevokeCert (shortened false) (revokeOf "a")) (initial newState 0))
        (stepsOn 1 2) = some c ∧ c.thread () = .done .noContent ∧
      ∃ c₁ : Conf (Either HubAns (@CacheAns Bool)) Unit (World Bool) RenewAnswer, ∃ a,
        run machine (solo (handleRenew (shortened false) renewOf) c.shared) (stepsOn 2 2) =
          some c₁ ∧
        c₁.thread () = .done a ∧ ∀ new, a ≠ .issued new := by
  have hlaw := (an_accepted_serial_names_its_certificate_iff_canonical Bool "a" (by decide)).mpr
    (by decide)
  refine ⟨by decide, _, rfl, rfl, _, _, rfl, rfl, ?_⟩
  obtain ⟨rc, hentry, hrest⟩ := hlaw.2.2 (shortened false) (revokeOf "a") (initial newState 0)
    (stepsOn 1 2) _ rfl rfl rfl spokeCert (by decide)
  have hlong : spokeCert.notAfter ≤ rc.notAfter := by
    obtain rfl := Option.some.inj hentry
    decide
  exact (hrest hlong).2.1 (shortened false) renewOf (stepsOn 2 2) _ _ rfl rfl rfl

/-- The text `0a` denotes ten as well. It is accepted and recorded, and the certificate with
the serial number ten is renewed on the next day. -/
theorem a_leading_zero_revokes_no_certificate :
    validSerial "0a" = true ∧ hexValue "0a" = spokeCert.serialNumber ∧
    serialHex (hexValue "0a") ≠ "0a" ∧
    ∃ c : Conf (Either HubAns (@CacheAns Bool)) Unit (World Bool) RevokeAnswer,
      run machine (solo (handleRevokeCert (shortened false) (revokeOf "0a")) (initial newState 0))
        (stepsOn 1 2) = some c ∧ c.thread () = .done .noContent ∧
      (∃ rc, c.shared.2.1.doc.revokedCerts.lookup "0a" = some rc ∧
        spokeCert.notAfter ≤ rc.notAfter) ∧
      c.shared.2.1.doc.revokedCerts.lookup spokeCert.serial = none ∧
      ∃ c₁ : Conf (Either HubAns (@CacheAns Bool)) Unit (World Bool) RenewAnswer, ∃ new,
        run machine (solo (handleRenew (shortened false) renewOf) c.shared) (stepsOn 2 3) =
          some c₁ ∧
        c₁.thread () = .done (.issued new) := by
  refine ⟨by decide, by decide, by decide, _, rfl, rfl, ⟨_, rfl, by decide⟩, rfl, _, _, rfl, rfl⟩

end prom_fleet.revocation
