-- The tracker of issuers: a handshake records which root signed a certificate, a count of the
-- holdouts of a root reads the serials of the attached sessions and forgets old records.
import PromFleet.Identity
import PromFleet.MapRange
import PromFleet.Traces
import Mathlib.Data.String.Basic

namespace prom_fleet.ca_issuers

open map_range traces Finmap List

/-- `issuerSighting`. -/
structure Sighting where
  fingerprint : String
  time : Int

def sightingGrace : Int := 120000000000

/-- The loop of `holdoutsOn`: what it counts, and what it leaves in the map. -/
def holdoutsOn (order : Range String Sighting) (live : Finset String) (now : Int)
    (fingerprint : String) (bySerial : StrMap Sighting) : Nat × StrMap Sighting :=
  ((order.list bySerial).countP fun x => x.1 ∈ live && x.2.fingerprint = fingerprint,
    (sweep (fun serial s => serial ∉ live && sightingGrace < now - s.time) (order.list bySerial)
      (bySerial, 0)).1)

/-- A replica: the verified handshakes that are not attached, with their times, the serials of
the attached sessions, and what the counts under way have read of them. -/
structure Replica where
  clock : Int
  bySerial : StrMap Sighting
  handshakes : List (String × Int)
  sessions : List String
  counts : List (Finset String)

def newReplica : Replica := ⟨0, ∅, [], [], []⟩

inductive Event where
  | tick (d : Nat)
  | verify (serial : String)
  | attach (serial : String) (verified : Int)
  | detach (serial : String)
  | liveSerials
  | holdoutsOn (order : Range String Sighting) (live : Finset String) (fingerprint : String)

/-- One event, where `issuer` tells the root of a certificate. A session is attached within the
grace of its handshake. -/
def Replica.step (issuer : String → String) (s : Replica) : Event → Option Replica
  | .tick d => some { s with clock := s.clock + d }
  | .verify serial =>
    some { s with
      bySerial := s.bySerial.insert serial ⟨issuer serial, s.clock⟩
      handshakes := (serial, s.clock) :: s.handshakes }
  | .attach serial verified =>
    if (serial, verified) ∈ s.handshakes ∧ s.clock ≤ verified + sightingGrace then
      some { s with
        handshakes := s.handshakes.erase (serial, verified), sessions := serial :: s.sessions }
    else none
  | .detach serial =>
    if serial ∈ s.sessions then some { s with sessions := s.sessions.erase serial } else none
  | .liveSerials => some { s with counts := (s.sessions.filter (· ≠ "")).toFinset :: s.counts }
  | .holdoutsOn order live fingerprint =>
    if live ∈ s.counts then
      some { s with
        bySerial := (holdoutsOn order live s.clock fingerprint s.bySerial).2
        counts := s.counts.erase live }
    else none

/-- The serial is attached, or a count under way has read it. -/
def Replica.Needs (s : Replica) (serial : String) : Prop :=
  serial ∈ s.sessions ∨ ∃ live ∈ s.counts, serial ∈ live

/-- What a count has not read, although it is attached by now or another count has read it, has
been seen within the grace. -/
def Timely (s : Replica) : Event → Prop
  | .holdoutsOn _ live _ => ∀ serial, { s with counts := s.counts.erase live }.Needs serial →
    serial ∉ live → ∀ x, s.bySerial.lookup serial = some x → s.clock - x.time ≤ sightingGrace
  | _ => True

structure Tracked (issuer : String → String) (s : Replica) : Prop where
  issuers : ∀ serial x, s.bySerial.lookup serial = some x → x.fingerprint = issuer serial
  recent : ∀ x ∈ s.handshakes, x.2 ≤ s.clock ∧ (s.clock ≤ x.2 + sightingGrace →
    ∃ y, s.bySerial.lookup x.1 = some y ∧ x.2 ≤ y.time)
  known : ∀ serial, s.Needs serial → ∃ x, s.bySerial.lookup serial = some x

variable {issuer : String → String} {s t : Replica} {e : Event} {order : Range String Sighting}
  {live : Finset String} {fingerprint serial : String} {m : StrMap Sighting} {now : Int}
  {x : Sighting}

theorem lookup_holdoutsOn : (holdoutsOn order live now fingerprint m).2.lookup serial = some x ↔
    m.lookup serial = some x ∧ (serial ∈ live ∨ now - x.time ≤ sightingGrace) := by
  rw [holdoutsOn, lookup_sweep, Option.filter_eq_some_iff]
  simp [or_comm]

theorem Tracked.step (h : Tracked issuer s) (hc : Timely s e) (hs : s.step issuer e = some t) :
    Tracked issuer t := by
  obtain ⟨hissuers, hrecent, hknown⟩ := h
  cases e with
  | tick d =>
    cases hs
    refine ⟨hissuers, ?_, hknown⟩
    grind
  | verify serial =>
    cases hs
    have hsame (k : String) (hk : k ≠ serial) : (s.bySerial.insert serial
        ⟨issuer serial, s.clock⟩).lookup k = s.bySerial.lookup k := lookup_insert_of_ne _ hk
    have hnew := lookup_insert (a := serial) (b := (⟨issuer serial, s.clock⟩ : Sighting)) s.bySerial
    refine ⟨fun k x hx => ?_, ?_, fun k hk => ?_⟩
    · obtain rfl | hk := eq_or_ne k serial
      · cases hnew.symm.trans hx
        rfl
      · exact hissuers k x (hsame k hk ▸ hx)
    · rintro ⟨k, v⟩ hx
      rcases mem_cons.mp hx with hnow | hold
      · cases hnow
        exact ⟨le_rfl, fun _ => ⟨_, hnew, le_rfl⟩⟩
      · obtain rfl | hk := eq_or_ne k serial
        · exact ⟨(hrecent _ hold).1, fun _ => ⟨_, hnew, (hrecent _ hold).1⟩⟩
        · exact hsame k hk ▸ hrecent _ hold
    · obtain rfl | hks := eq_or_ne k serial
      · exact ⟨_, hnew⟩
      · exact hsame k hks ▸ hknown k hk
  | attach serial verified =>
    obtain ⟨⟨hmem, hlate⟩, hs⟩ := Option.ite_none_right_eq_some.mp hs
    cases hs
    obtain ⟨y, hy, -⟩ := (hrecent _ hmem).2 hlate
    refine ⟨hissuers, fun x hx => hrecent x (mem_of_mem_erase hx), fun k hk => ?_⟩
    rcases hk with hk | hk
    · rcases mem_cons.mp hk with rfl | hk
      · exact ⟨y, hy⟩
      · exact hknown k (.inl hk)
    · exact hknown k (.inr hk)
  | detach serial =>
    obtain ⟨-, hs⟩ := Option.ite_none_right_eq_some.mp hs
    cases hs
    exact ⟨hissuers, hrecent, fun k hk => hknown k (hk.imp_left mem_of_mem_erase)⟩
  | liveSerials =>
    cases hs
    refine ⟨hissuers, hrecent, fun k hk => hknown k ?_⟩
    grind [Replica.Needs, List.mem_toFinset]
  | holdoutsOn order live fingerprint =>
    obtain ⟨-, hs⟩ := Option.ite_none_right_eq_some.mp hs
    cases hs
    refine ⟨?_, ?_, fun k hk => ?_⟩
    · grind [lookup_holdoutsOn]
    · grind [lookup_holdoutsOn]
    obtain ⟨y, hy⟩ := hknown k
      (hk.imp_right fun ⟨other, ho, hin⟩ => ⟨other, mem_of_mem_erase ho, hin⟩)
    have hseen := hc k hk
    grind [lookup_holdoutsOn]

theorem Tracked.count (h : Tracked issuer s) (hlive : live ∈ s.counts) :
    (holdoutsOn order live now fingerprint s.bySerial).1 =
      (live.filter fun serial => issuer serial = fingerprint).card := by
  let p : (Σ _ : String, Sighting) → Bool := fun x => x.1 ∈ live && x.2.fingerprint = fingerprint
  have hnodup : (((order.list s.bySerial).filter p).map Sigma.fst).Nodup :=
    (order.nodup_keys s.bySerial).sublist (filter_sublist.map _)
  have hserials : (((order.list s.bySerial).filter p).map Sigma.fst).toFinset =
      live.filter fun serial => issuer serial = fingerprint := by
    ext serial
    simp only [List.mem_toFinset, mem_map, List.mem_filter, Finset.mem_filter]
    constructor
    · rintro ⟨⟨k, x⟩, ⟨hx, hp⟩, rfl⟩
      have hfp := h.issuers k x ((order.mem_list _).mp hx)
      simpa [p, hfp] using hp
    · rintro ⟨hin, hfp⟩
      obtain ⟨x, hx⟩ := h.known serial (.inr ⟨live, hlive, hin⟩)
      have hp : p ⟨serial, x⟩ = true := by simp [p, hin, h.issuers serial x hx, hfp]
      exact ⟨⟨serial, x⟩, ⟨(order.mem_list _).mpr hx, hp⟩, rfl⟩
  rw [← hserials, toFinset_card_of_nodup hnodup, length_map]
  exact countP_eq_length_filter

/-- In every run whose counts are timely, a count gives the number of certificates of the root
among the serials that it has read, and forgets none of them. -/
theorem live_holdouts_are_counted (issuer : String → String) (es : List Event) (s : Replica)
    (hmeets : Meets (Replica.step issuer) Timely newReplica es)
    (hrun : run (Replica.step issuer) newReplica es = some s) (order : Range String Sighting)
    (live : Finset String) (hlive : live ∈ s.counts) (fingerprint : String) :
    let r := holdoutsOn order live s.clock fingerprint s.bySerial
    r.1 = (live.filter fun serial => issuer serial = fingerprint).card ∧
      ∀ serial ∈ live, r.2.lookup serial = s.bySerial.lookup serial := by
  have hnew : Tracked issuer newReplica :=
    ⟨by simp [newReplica], by simp [newReplica], by simp [newReplica, Replica.Needs]⟩
  have h : Tracked issuer s := run_keeps_if (fun s e t hc hI hs => hI.step hc hs) hnew hmeets hrun
  refine ⟨h.count hlive, fun serial hin => Option.ext fun x => ?_⟩
  rw [lookup_holdoutsOn]
  exact and_iff_left (.inl hin)

/-- A count reads the sessions after a handshake and ends after the session is attached, in time.
The next one finds the session. -/
def holdoutRun : List Event :=
  [.verify "a", .liveSerials, .tick 5, .attach "a" 0, .holdoutsOn ascending ∅ "old", .liveSerials]

theorem a_holdout_is_counted :
    ∃ s, run (Replica.step fun _ => "old") newReplica holdoutRun = some s ∧
      (holdoutsOn ascending {"a"} s.clock "old" s.bySerial).1 = 1 := by
  have hmeets : Meets (Replica.step fun _ => "old") Timely newReplica holdoutRun := by
    simp +contextual [holdoutRun, Meets, Timely, Replica.step, newReplica, Replica.Needs,
      sightingGrace]
  have h := live_holdouts_are_counted _ holdoutRun _ hmeets rfl ascending {"a"} (by decide) "old"
  exact ⟨_, rfl, h.1⟩

/-- A count reads the sessions 118 s after a handshake, the session is attached a second later,
and the count ends two seconds after that. -/
def lateAttach : List Event :=
  [.verify "a", .tick 118000000000, .liveSerials, .tick 1000000000, .attach "a" 0,
    .tick 2000000000, .holdoutsOn ascending ∅ "old", .liveSerials]

/-- The next count finds the session, but not its certificate. -/
theorem a_live_holdout_is_forgotten :
    ∃ s, run (Replica.step fun _ => "old") newReplica lateAttach = some s ∧ {"a"} ∈ s.counts ∧
      (holdoutsOn ascending {"a"} s.clock "old" s.bySerial).1 = 0 ∧
      (({"a"} : Finset String).filter fun _ => "old" = "old").card = 1 :=
  ⟨_, rfl, by decide, by decide, by decide⟩

end prom_fleet.ca_issuers
