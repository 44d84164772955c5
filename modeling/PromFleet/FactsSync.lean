-- How the hub keeps a copy of the facts of one spoke: the spoke publishes snapshots, and
-- the hub polls them over a session with the fingerprint of what it has. Each critical
-- section of the two locks is one operation.
import PromFleet.ClusterFacts
import Mathlib.Logic.Equiv.List
import Mathlib.Tactic.DeriveCountable

namespace prom_fleet.clusterfacts

open interleave List Prog

/-! ## The system -/

inductive Party where
  | spoke
  | hub
  deriving DecidableEq

/-- What is fixed for the session: the digest of `Fingerprint`, the start time of the
spoke's process, and what the certificate says. -/
structure Link where
  digest : CanonicalFacts → String
  generation : Int
  id : String
  certNotAfter : Int

/-- What the environment decides at a step: the clock, whether a call or a reply gets through,
the operator's labels (`none` if the lookup fails), and whether the slot is registered. -/
structure Env where
  now : Int
  through : Bool
  owned : Option (StrMap String)
  registered : Bool

/-- A `Describe` that has been answered: the snapshot it saw, and the slot at that time. -/
structure Reply where
  seen : Cluster
  sent : DescribeResponse
  held : Option Slot

/-- A poll whose `applyFacts` succeeded: the snapshot that its `Describe` saw, and the slot
before and after. -/
structure Poll where
  seen : Cluster
  facts : Facts
  before : Slot
  after : Slot

/-- The collector's snapshot and its fingerprint, the slot of the session and the generation
that it has stored. The rest is the record that the laws are about. -/
structure State where
  cluster : Cluster
  fingerprint : String
  slot : Option Slot
  gen : Int
  seen : Cluster
  replies : List Reply
  polls : List Poll

inductive Op where
  | publish (c : Cluster)
  | alive
  | fingerprint
  | facts
  | send (m : DescribeResponse)
  | generation (reported : Int)
  | known
  | spokeLabels
  | authoritativeLabels
  | clock
  | attach (sl : Slot)
  | apply (facts : Facts) (reported merged : StrMap String) (now : Int)

abbrev Ans : Op → Type
  | .publish _ => Unit
  | .alive => Bool
  | .fingerprint => String
  | .facts => Facts
  | .send _ => Option DescribeResponse
  | .generation _ => Int
  | .known => String
  | .spokeLabels => StrMap String
  | .authoritativeLabels => Option (StrMap String)
  | .clock => Int
  | .attach _ => Bool
  | .apply .. => Unit

def act (l : Link) : (o : Op) → Env → State → Ans o × State
  | .publish c, _, s =>
    ((), { s with cluster := c, fingerprint := fingerprint l.digest c })
  | .alive, e, s => (e.through, s)
  | .fingerprint, _, s => (s.fingerprint, { s with seen := s.cluster })
  | .facts, _, s => (⟨s.fingerprint, true, s.cluster, l.generation⟩, { s with seen := s.cluster })
  | .send m, e, s =>
    (if e.through then some m else none,
      { s with replies := ⟨s.seen, m, s.slot⟩ :: s.replies })
  | .generation g, _, s => if g ≠ 0 then (g, { s with gen := g }) else (s.gen, s)
  | .known, _, s => ((s.slot.map Slot.fingerprint).getD "", s)
  | .spokeLabels, _, s => ((s.slot.map Slot.spokeLabels).getD ∅, s)
  | .authoritativeLabels, e, s => (e.owned, s)
  | .clock, e, s => (e.now, s)
  | .attach sl, e, s => if e.registered then (true, { s with slot := some sl }) else (false, s)
  | .apply facts reported merged now, e, s =>
    match s.slot with
    | none => ((), s)
    | some sl =>
      if e.registered then
        let after := sl.refresh l.id facts reported merged now
        ((), { s with slot := some after, polls := ⟨s.seen, facts, sl, after⟩ :: s.polls })
      else ((), s)

def machine (l : Link) : Machine Ans Party Env State := ⟨fun _ o e s => some (act l o e s)⟩

abbrev Call (α : Type) := Prog Ans α

abbrev alive : Call Bool := Prog.call Op.alive
abbrev clock : Call Int := Prog.call Op.clock

def describe (l : Link) (known : String) : Call (Option Facts) := do
  if !(← alive) then return none
  let current ← (Prog.call Op.fingerprint : Call String)
  if known ≠ "" ∧ known = current then return some ⟨current, false, .zero, l.generation⟩
  let facts ← (Prog.call Op.facts : Call Facts)
  return some facts

/-- `session.Describe`, with the spoke's handler at the other end of the tunnel. -/
def sessionDescribe (l : Link) (known : String) : Call (Option Facts) := do
  if !(← alive) then return none
  match ← describe l known with
  | none => return none
  | some facts =>
    match ← (Prog.call (Op.send (factsToProto facts l.generation)) :
        Call (Option DescribeResponse)) with
    | none => return none
    | some m =>
      let facts := factsFromProto m
      let gen ← (Prog.call (Op.generation facts.generation) : Call Int)
      return some { facts with generation := gen }

def mergeLabels (reported : StrMap String) : Call (Option (StrMap String)) := do
  let owned ← (Prog.call Op.authoritativeLabels : Call (Option (StrMap String)))
  return owned.map fun owned => registry.overlay reported owned

/-- `OnSession`: whether the session has its slot. -/
def onSession (l : Link) : Call Bool := do
  match ← sessionDescribe l "" with
  | none => return false
  | some facts =>
    match ← mergeLabels facts.cluster.labels with
    | none => return false
    | some merged =>
      let now ← clock
      (Prog.call (Op.attach (.admitted l.id l.certNotAfter facts merged now)) : Call Bool)

/-- The labels that `applyFacts` merges: an unchanged reply leaves those of the slot. -/
def reportedLabels (facts : Facts) : Call (StrMap String) :=
  if facts.changed then pure facts.cluster.labels else Prog.call Op.spokeLabels

def applyFacts (facts : Facts) : Call Unit := do
  let now ← clock
  let reported ← reportedLabels facts
  match ← mergeLabels reported with
  | none => return ()
  | some merged => (Prog.call (Op.apply facts reported merged now) : Call Unit)

/-- `pollFacts`, until it has had so many ticks. -/
def pollFacts (l : Link) : Nat → Call Unit
  | 0 => return ()
  | ticks + 1 => do
    let fp ← (Prog.call Op.known : Call String)
    match ← sessionDescribe l fp with
    | none => pollFacts l ticks
    | some facts =>
      applyFacts facts
      pollFacts l ticks

/-- The hub's side of the session. -/
def attend (l : Link) (ticks : Nat) : Call Unit := do
  if ← onSession l then pollFacts l ticks

/-- The collector publishes one snapshot after the other. -/
def publishAll : List Cluster → Call Unit
  | [] => return ()
  | c :: cs => do
    (Prog.call (Op.publish c) : Call Unit)
    publishAll cs

/-- The spoke has published its first snapshot, and the session is new. -/
def start (l : Link) (first : Cluster) (snapshots : List Cluster) (ticks : Nat) :
    Conf Ans Party State Unit :=
  { shared :=
      { cluster := first, fingerprint := fingerprint l.digest first, slot := none,
        gen := 0, seen := first, replies := [], polls := [] }
    thread := fun
      | .spoke => publishAll snapshots
      | .hub => attend l ticks }

/-! ## What the parties keep -/

/-- The copy of the hub is right: after a poll the slot holds the snapshot that its `Describe`
saw, in the order of its lists if the reply brought it, and an unchanged reply is given only when
the slot holds it already. -/
structure Converged (s : State) : Prop where
  polls : ∀ p ∈ s.polls, p.after.Holds p.seen ∧
    (p.facts.changed = true → p.after.facts.owned = p.seen.owned)
  replies : ∀ r ∈ s.replies, r.sent.unchanged = true → ∃ sl, r.held = some sl ∧ sl.Holds r.seen

/-- The slot holds a snapshot, under its fingerprint, and every reply and poll so far was right
about the snapshot it saw. -/
structure Sound (l : Link) (s : State) : Prop extends Converged s where
  fingerprint : s.fingerprint = fingerprint l.digest s.cluster
  slot : ∀ sl, s.slot = some sl →
    ∃ c, sl.fingerprint = clusterfacts.fingerprint l.digest c ∧ sl.Holds c

/-- The slot and the snapshot of the running `Describe` are the hub's. -/
def Leaves (s t : State) : Prop := t.slot = s.slot ∧ t.seen = s.seen

def pact (l : Link) : Pact Op Party Env State where
  inv := Sound l
  cond _ _ _ _ := True
  rely i s t := i = .hub → Leaves s t
  guar i s t := i = .spoke → Leaves s t
  rely_refl _ _ := fun _ => ⟨rfl, rfl⟩
  rely_trans _ _ _ _ hst htu := fun hi =>
    ⟨(htu hi).1.trans (hst hi).1, (htu hi).2.trans (hst hi).2⟩
  rely_of_guar i j s t hij _ _ h := fun hj => by
    subst hj
    cases i with
    | spoke => exact h rfl
    | hub => exact absurd rfl hij

section Laws

variable {l : Link} {α : Type}

theorem publishAll_holds (snapshots : List Cluster) (s : State) :
    Holds (machine l) (pact l) .spoke (publishAll snapshots) (fun _ _ => True) s := by
  induction snapshots generalizing s with
  | nil => exact fun _ _ _ => trivial
  | cons c cs ih =>
    intro t _ ht e _ a u hu
    cases hu
    exact ⟨⟨⟨ht.polls, ht.replies⟩, rfl, ht.slot⟩, fun _ => ⟨rfl, rfl⟩, ih _⟩

variable {Q : α → State → Prop} {s : State}

variable (l) in
abbrev HubHolds := Holds (α := α) (machine l) (pact l) .hub

/-- One step of the hub, from what the spoke cannot have touched. -/
theorem hub_op {o : Op} {k : Ans o → Call α} (h : ∀ t e, Leaves s t → Sound l t →
      Sound l (act l o e t).2 ∧
        HubHolds l (k (act l o e t).1) Q (act l o e t).2) : HubHolds l (.op o k) Q s := by
  intro t hr ht e _ a u hu
  have hact : act l o e t = (a, u) := Option.some.inj hu
  obtain ⟨hsound, hrest⟩ := h t e (hr rfl) ht
  rw [hact] at hsound hrest
  exact ⟨hsound, nofun, hrest⟩

theorem hub_done {a : α} (h : ∀ t, Leaves s t → Sound l t → Q a t) :
    HubHolds l (.done a) Q s :=
  fun t hr ht => h t (hr rfl) ht

/-- What a reply says of the snapshot that its `Describe` saw: a changed one brings it, and
an unchanged one is given when the slot holds it. -/
structure Answers (l : Link) (facts : Facts) (s : State) : Prop where
  changed : facts.changed = true →
    facts.fingerprint = fingerprint l.digest s.seen ∧
      facts.cluster.owned = s.seen.owned ∧ facts.cluster.labels = s.seen.labels
  unchanged : facts.changed = false → ∃ sl, s.slot = some sl ∧ sl.Holds s.seen

variable {facts : Facts}

theorem Answers.leaves {t : State} (h : Answers l facts s) (hst : Leaves s t) :
    Answers l facts t := by
  obtain ⟨hslot, hseen⟩ := hst
  refine ⟨?_, ?_⟩
  · rw [hseen]
    exact h.changed
  · rw [hseen, hslot]
    exact h.unchanged

/-- The fingerprint that the hub sends is the one of its slot. -/
def Knows (known : String) (s : State) : Prop :=
  known = "" ∨ ∃ sl, s.slot = some sl ∧ sl.fingerprint = known

variable {known : String}

/-- A hub that knows the fingerprint of the snapshot holds the snapshot. -/
theorem holds_of_knows (hinj : Function.Injective l.digest) (hs : Sound l s)
    (hk : Knows known s) (hne : known ≠ "") (heq : known = s.fingerprint) :
    ∃ sl, s.slot = some sl ∧ sl.Holds s.cluster := by
  obtain hempty | ⟨sl, hsl, hfp⟩ := hk
  · exact absurd hempty hne
  obtain ⟨c, hcfp, howned, hlabels⟩ := hs.slot sl hsl
  have hsame : fingerprint l.digest c = clusterfacts.fingerprint l.digest s.cluster := by
    rw [← hcfp, hfp, heq, hs.fingerprint]
  obtain ⟨ho, hl⟩ := agrees_of_fingerprint hinj hsame
  exact ⟨sl, hsl, howned.trans ho, hlabels.trans hl⟩

theorem describe_holds (hinj : Function.Injective l.digest)
    (hk : Knows known s) : HubHolds l (describe l known)
      (fun r t => t.slot = s.slot ∧ ∀ facts, r = some facts → Answers l facts t) s := by
  simp only [describe, call_bind, pure_eq]
  refine hub_op fun t e ht hsound => ⟨hsound, ?_⟩
  by_cases hthrough : (!(act l .alive e t).1) = true
  · rw [if_pos hthrough]
    exact hub_done fun u hu _ => ⟨hu.1.trans ht.1, by rintro _ ⟨⟩⟩
  rw [if_neg hthrough]
  refine hub_op fun u e hu hsoundu => ⟨⟨⟨hsoundu.polls, hsoundu.replies⟩,
    hsoundu.fingerprint, hsoundu.slot⟩, ?_⟩
  have hslot : u.slot = s.slot := hu.1.trans ht.1
  by_cases hmatch : known ≠ "" ∧ known = (act l .fingerprint e u).1
  · -- the first section has seen the fingerprint that the hub knows
    have hku : Knows known u := by simpa [Knows, hslot] using hk
    obtain ⟨sl, hsl, hholds⟩ := holds_of_knows hinj hsoundu hku hmatch.1 hmatch.2
    have hanswers : Answers l ⟨u.fingerprint, false, .zero, l.generation⟩
        { u with seen := u.cluster } := ⟨nofun, fun _ => ⟨sl, hsl, hholds⟩⟩
    rw [if_pos hmatch]
    refine hub_done fun v hv _ => ⟨hv.1.trans hslot, ?_⟩
    rintro facts ⟨⟩
    exact hanswers.leaves hv
  · rw [if_neg hmatch]
    refine hub_op fun v e hv hsoundv => ⟨⟨⟨hsoundv.polls, hsoundv.replies⟩,
      hsoundv.fingerprint, hsoundv.slot⟩, ?_⟩
    have hanswers : Answers l ⟨v.fingerprint, true, v.cluster, l.generation⟩
        { v with seen := v.cluster } :=
      ⟨fun _ => ⟨hsoundv.fingerprint, rfl, rfl⟩, nofun⟩
    refine hub_done fun w hw _ => ⟨(hw.1.trans hv.1).trans hslot, ?_⟩
    rintro facts ⟨⟩
    exact hanswers.leaves hw

/-- The reply says over the tunnel what it said at the spoke. -/
theorem Answers.wire (h : Answers l facts s) (generation stored : Int) : Answers l
      { factsFromProto (factsToProto facts generation) with generation := stored } s where
  changed hchanged := by
    simp only [roundtrip_changed] at hchanged
    obtain ⟨hfp, howned, hlabels⟩ := h.changed hchanged
    obtain ⟨ho, hl⟩ := roundtrip_owned facts generation hchanged
    exact ⟨by simpa using hfp, ho.trans howned, hl.trans hlabels⟩
  unchanged hunchanged := by
    simp only [roundtrip_changed] at hunchanged
    exact h.unchanged hunchanged

theorem Sound.send (hs : Sound l s) (h : Answers l facts s) (e : Env) :
    Sound l (act l (.send (factsToProto facts l.generation)) e s).2 := by
  refine ⟨⟨hs.polls, ?_⟩, hs.fingerprint, hs.slot⟩
  refine forall_mem_cons.mpr ⟨fun hunchanged => ?_, hs.replies⟩
  have hchanged : facts.changed = false := by simpa using hunchanged
  exact h.unchanged hchanged

theorem generation_sound (hs : Sound l s) (g : Int) (e : Env) :
    Sound l (act l (.generation g) e s).2 ∧ Leaves s (act l (.generation g) e s).2 := by
  simp only [act]
  split
  · exact ⟨⟨⟨hs.polls, hs.replies⟩, hs.fingerprint, hs.slot⟩, rfl, rfl⟩
  · exact ⟨hs, rfl, rfl⟩

theorem sessionDescribe_holds (hinj : Function.Injective l.digest)
    (hk : Knows known s) : HubHolds l (sessionDescribe l known)
      (fun r t => t.slot = s.slot ∧ ∀ facts, r = some facts → Answers l facts t) s := by
  simp only [sessionDescribe, call_bind, pure_eq]
  refine hub_op fun t e ht hsound => ⟨hsound, ?_⟩
  by_cases hthrough : (!(act l .alive e t).1) = true
  · rw [if_pos hthrough]
    exact hub_done fun u hu _ => ⟨hu.1.trans ht.1, by rintro _ ⟨⟩⟩
  rw [if_neg hthrough]
  have hkt : Knows known t := by simpa [Knows, ht.1] using hk
  refine (describe_holds hinj hkt).seq hsound ?_
  rintro (_ | facts) u husound ⟨huslot, hu⟩
  · exact hub_done fun v hv _ => ⟨(hv.1.trans huslot).trans ht.1, by rintro _ ⟨⟩⟩
  have hanswers := hu facts rfl
  refine hub_op fun v e hv hvsound => ⟨hvsound.send (hanswers.leaves hv) e, ?_⟩
  have hvslot : v.slot = s.slot := (hv.1.trans huslot).trans ht.1
  cases hgot : e.through with
  | false =>
    simp only [act, hgot]
    exact hub_done fun w hw _ => ⟨hw.1.trans hvslot, by rintro _ ⟨⟩⟩
  | true =>
    simp only [act, hgot]
    refine hub_op fun w e hw hwsound => ⟨(generation_sound hwsound _ e).1, ?_⟩
    obtain ⟨-, hwx⟩ := generation_sound hwsound
      (factsFromProto (factsToProto facts l.generation)).generation e
    refine hub_done fun y hy _ => ⟨((hy.1.trans hwx.1).trans hw.1).trans hvslot, ?_⟩
    rintro _ ⟨⟩
    exact (((hanswers.leaves hv).leaves hw).leaves hwx).leaves hy |>.wire _ _

variable {reported : StrMap String}

theorem mergeLabels_holds : HubHolds l (mergeLabels reported) (fun _ t => Leaves s t) s := by
  simp only [mergeLabels, call_bind, pure_eq]
  refine hub_op fun t e ht hsound => ⟨hsound, ?_⟩
  exact hub_done fun u hu _ => ⟨hu.1.trans ht.1, hu.2.trans ht.2⟩

theorem Sound.attach (hs : Sound l s) (h : Answers l facts s)
    (hchanged : facts.changed = true) (merged : StrMap String) (now : Int) (e : Env) :
    Sound l (act l (.attach (.admitted l.id l.certNotAfter facts merged now)) e s).2 := by
  simp only [act]
  split
  · obtain ⟨hfp, howned, hlabels⟩ := h.changed hchanged
    refine ⟨⟨hs.polls, hs.replies⟩, hs.fingerprint, ?_⟩
    rintro _ ⟨⟩
    exact ⟨s.seen, hfp, howned ▸ .refl _, hlabels⟩
  · exact hs

theorem Sound.apply (hs : Sound l s) (h : Answers l facts s) (merged : StrMap String)
    (now : Int) (hreported : facts.changed = true → reported = facts.cluster.labels) (e : Env) :
    Sound l (act l (.apply facts reported merged now) e s).2 := by
  cases hslot : s.slot with
  | none => simpa only [act, hslot] using hs
  | some sl =>
    cases hreg : e.registered with
    | false => simpa [act, hslot, hreg] using hs
    | true =>
      simp only [act, hslot, hreg]
      cases hchanged : facts.changed with
      | true =>
        obtain ⟨hfp, howned, hlabels⟩ := h.changed hchanged
        have hbrought := (refresh_changed_owned hchanged sl l.id reported merged now).trans howned
        have hholds : (sl.refresh l.id facts reported merged now).Holds s.seen :=
          ⟨hbrought ▸ .refl _, by simp [Slot.refresh, hchanged, hreported hchanged, hlabels]⟩
        refine ⟨⟨forall_mem_cons.mpr ⟨⟨hholds, fun _ => hbrought⟩, hs.polls⟩, hs.replies⟩,
          hs.fingerprint, ?_⟩
        rintro _ ⟨⟩
        exact ⟨s.seen, by simpa [Slot.refresh, hchanged] using hfp, hholds⟩
      | false =>
        -- the slot keeps its facts, and they are the snapshot already
        obtain ⟨held, hheld, hholds⟩ := h.unchanged hchanged
        obtain rfl : sl = held := Option.some.inj (hslot.symm.trans hheld)
        obtain ⟨c, hfp, hsame⟩ := hs.slot sl hslot
        rw [refresh_unchanged hchanged]
        refine ⟨⟨forall_mem_cons.mpr ⟨⟨hholds, fun hyes => ?_⟩, hs.polls⟩, hs.replies⟩,
          hs.fingerprint, ?_⟩
        · cases hchanged.symm.trans hyes
        · rintro _ ⟨⟩
          exact ⟨c, hfp, hsame⟩

theorem onSession_holds (hinj : Function.Injective l.digest)
    (hs : Sound l s) (hslot : s.slot = none) :
    HubHolds l (onSession l) (fun _ _ => True) s := by
  have hk : Knows "" s := Or.inl rfl
  refine (sessionDescribe_holds hinj hk).seq hs ?_
  rintro (_ | facts) t htsound ⟨htslot, ht⟩
  · exact hub_done fun _ _ _ => trivial
  have hanswers := ht facts rfl
  -- without a slot there is nothing that the reply could leave unchanged
  have hchanged : facts.changed = true := by
    by_contra hno
    obtain ⟨sl, hsl, -⟩ := hanswers.unchanged (by simpa using hno)
    simp [htslot, hslot] at hsl
  refine mergeLabels_holds.seq htsound ?_
  rintro (_ | merged) u husound hu
  · exact hub_done fun _ _ _ => trivial
  refine hub_op fun v e hv hvsound => ⟨hvsound, ?_⟩
  refine hub_op fun w e hw hwsound => ⟨?_, hub_done fun _ _ _ => trivial⟩
  exact hwsound.attach (((hanswers.leaves hu).leaves hv).leaves hw) hchanged _ _ e

theorem reportedLabels_holds (facts : Facts) (s : State) :
    HubHolds l (reportedLabels facts) (fun reported t =>
        Leaves s t ∧ (facts.changed = true → reported = facts.cluster.labels)) s := by
  unfold reportedLabels
  by_cases hchanged : facts.changed = true
  · rw [if_pos hchanged]
    exact hub_done fun t ht _ => ⟨ht, fun _ => rfl⟩
  rw [if_neg hchanged]
  refine hub_op fun t e ht htsound => ⟨htsound, ?_⟩
  exact hub_done fun u hu _ =>
    ⟨⟨hu.1.trans ht.1, hu.2.trans ht.2⟩, fun hyes => absurd hyes hchanged⟩

theorem applyFacts_holds (h : Answers l facts s) :
    HubHolds l (applyFacts facts) (fun _ _ => True) s := by
  rw [applyFacts, call_bind]
  refine hub_op fun t e ht htsound => ⟨htsound, ?_⟩
  refine (reportedLabels_holds facts t).seq htsound ?_
  rintro reported u husound ⟨hu, hlabels⟩
  refine mergeLabels_holds.seq husound ?_
  rintro (_ | merged) v hvsound hv
  · exact hub_done fun _ _ _ => trivial
  refine hub_op fun w e hw hwsound => ⟨?_, hub_done fun _ _ _ => trivial⟩
  exact hwsound.apply ((((h.leaves ht).leaves hu).leaves hv).leaves hw) _ _ hlabels e

theorem pollFacts_holds (hinj : Function.Injective l.digest)
    (ticks : Nat) (s : State) : HubHolds l (pollFacts l ticks) (fun _ _ => True) s := by
  induction ticks generalizing s with
  | zero => exact hub_done fun _ _ _ => trivial
  | succ ticks ih =>
    rw [pollFacts, call_bind]
    refine hub_op fun t e ht htsound => ⟨htsound, ?_⟩
    have hk : Knows (act l .known e t).1 t := by
      cases hslot : t.slot with
      | none => exact .inl (by simp [act, hslot])
      | some sl => exact .inr ⟨sl, hslot, by simp [act, hslot]⟩
    refine (sessionDescribe_holds hinj hk).seq htsound ?_
    rintro (_ | facts) u husound ⟨huslot, hu⟩
    · exact ih u
    · exact (applyFacts_holds (hu facts rfl)).seq husound fun _ v _ _ => ih v

theorem attend_holds (hinj : Function.Injective l.digest) (ticks : Nat)
    (hs : Sound l s) (hslot : s.slot = none) :
    HubHolds l (attend l ticks) (fun _ _ => True) s := by
  refine (onSession_holds hinj hs hslot).seq hs ?_
  rintro (_ | _) t _ _
  · exact hub_done fun _ _ _ => trivial
  · exact pollFacts_holds hinj ticks t

end Laws

/-! ## A digest without collisions -/

instance countableString : Countable String :=
  have : Countable Char := Function.Injective.countable fun _ _ h =>
    Char.ext (UInt32.toNat_inj.mp h)
  Function.Injective.countable fun _ _ h => String.toList_inj.mp h

instance : Countable (StrMap String) :=
  Function.Injective.countable fun _ _ h => Finmap.ext h

deriving instance Countable for CanonicalFacts

/-- A digest from any numbering of the facts, with short texts for two of them. -/
def digestBy (number : CanonicalFacts → Nat) (x y cf : CanonicalFacts) : String :=
  if cf = x then "x"
  else if cf = y then "y"
  else String.ofList (List.replicate (number cf + 2) 'z')

theorem digestBy_injective {number : CanonicalFacts → Nat} (hnumber : Function.Injective number)
    (x y : CanonicalFacts) : Function.Injective (digestBy number x y) := by
  have hlong : ∀ (n : Nat) (c : Char), String.ofList (List.replicate (n + 2) 'z') ≠
      String.ofList [c] := by
    intro n c h
    simpa using congrArg List.length (String.ofList_inj.mp h)
  intro a b h
  unfold digestBy at h
  split at h
  · split at h
    · simp_all
    · split at h
      · simp at h
      · exact absurd h.symm (hlong _ 'x')
  · split at h
    · split at h
      · simp at h
      · split at h
        · simp_all
        · exact absurd h.symm (hlong _ 'y')
    · split at h
      · exact absurd h (hlong _ 'x')
      · split at h
        · exact absurd h (hlong _ 'y')
        · have hlength := congrArg List.length (String.ofList_inj.mp h)
          simp only [length_replicate, Nat.add_right_cancel_iff] at hlength
          exact hnumber hlength

/-! ## Example snapshots -/

def linkOf (digest : CanonicalFacts → String) : Link := ⟨digest, 1, "prod", 100⟩

/-- The snapshot of a server with so many metric names. -/
def snapshot (names : List String) : Cluster :=
  { Cluster.zero with
    displayName := "prod"
    prometheus :=
      { PrometheusInfo.zero with
        reachable := true
        metricNames := names.length
        metricPrefixes := topPrefixes names 25 } }

def mostlyPods : List String :=
  ["kube_pod_info", "kube_pod_labels", "kube_pod_owner", "istio_request_total",
    "istio_request_bytes"]

def mostlyRequests : List String :=
  ["kube_pod_info", "kube_pod_labels", "istio_request_size", "istio_request_total",
    "istio_request_bytes"]

/-- A step at which nothing fails, and the operator has no labels. -/
def calm : Env := ⟨0, true, some ∅, true⟩

def admission : List (Party × Env) := List.replicate 9 (.hub, calm)

/-- The steps of a poll. A changed reply reads the facts, and an unchanged one the labels
of the slot. -/
def poll : List (Party × Env) := List.replicate 10 (.hub, calm)

/-! ## The copy of the hub -/

/-- The copy of the hub is right in every run, up to the order of the lists where a reply left it
unchanged. -/
theorem hub_holds_what_describe_saw_up_to_order (l : Link) (hinj : Function.Injective l.digest)
    (first : Cluster) (snapshots : List Cluster) (ticks : Nat) (evs : List (Party × Env))
    (c : Conf Ans Party State Unit)
    (hrun : run (machine l) (start l first snapshots ticks) evs = some c) : Converged c.shared := by
  have hsound : Sound l (start l first snapshots ticks).shared :=
    { polls := fun _ h => absurd h not_mem_nil
      replies := fun _ h => absurd h not_mem_nil
      fingerprint := rfl
      slot := by rintro _ ⟨⟩ }
  have hheld := run_holds (P := pact l) (Q := fun _ _ _ => True) hsound (fun i => by
    cases i with
    | spoke => exact publishAll_holds snapshots _
    | hub => exact attend_holds hinj ticks hsound rfl) (meets_true _ _) hrun
  exact hheld.1.toConverged

/-- A new metric comes, the hub takes it over, and then has nothing more to fetch. -/
theorem new_prefixes_reach_the_hub : ∃ digest, Function.Injective digest ∧
      ∃ evs c, run (machine (linkOf digest)) (start (linkOf digest) (snapshot mostlyPods)
            [snapshot ("kube_node_info" :: mostlyPods)] 2) evs = some c ∧
        c.shared.polls.map (fun p => p.facts.changed) = [false, true] ∧ Converged c.shared := by
  obtain ⟨number, hnumber⟩ := Countable.exists_injective_nat CanonicalFacts
  let x := canonicalFacts (snapshot mostlyPods)
  let y := canonicalFacts (snapshot ("kube_node_info" :: mostlyPods))
  let evs := admission ++ (.spoke, calm) :: (poll ++ poll)
  have hinj := digestBy_injective hnumber x y
  exact ⟨digestBy number x y, hinj, evs, _, rfl, rfl,
    hub_holds_what_describe_saw_up_to_order (linkOf (digestBy number x y)) hinj
      (snapshot mostlyPods) [snapshot ("kube_node_info" :: mostlyPods)] 2 evs _ rfl⟩

/-- One metric name more and one less: the two prefixes change places in the list, and
the fingerprint stays. -/
theorem reordered_prefixes_pass_for_unchanged : ∃ digest, Function.Injective digest ∧
      ∃ evs c, run (machine (linkOf digest))
          (start (linkOf digest) (snapshot mostlyPods) [snapshot mostlyRequests] 1) evs = some c ∧
        ∃ p ∈ c.shared.polls, p.facts.changed = false ∧
          p.seen.prometheus.metricPrefixes = ["istio_request", "kube_pod"] ∧
          p.after.facts.prometheus.metricPrefixes = ["kube_pod", "istio_request"] := by
  obtain ⟨number, hnumber⟩ := Countable.exists_injective_nat CanonicalFacts
  let cf := canonicalFacts (snapshot mostlyPods)
  exact ⟨digestBy number cf cf, digestBy_injective hnumber cf cf,
    admission ++ (.spoke, calm) :: poll, _, rfl, _, mem_singleton_self _, rfl, rfl, rfl⟩

end prom_fleet.clusterfacts
