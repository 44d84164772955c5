-- What the signals of an endpoint show. A dial reads the table in one step and publishes
-- what it has read in later ones, so a signal is right when every publication comes before
-- the table changes again.
import PromFleet.CoverageLaws

namespace prom_fleet.coverage

open interleave publish

variable {ι : Type} [DecidableEq ι] {endpoint : String}

/-! ## Fresh readings -/

def Op.reads : Op → Bool
  | .state => true
  | _ => false

/-- The signal that an operation sets. They are numbered by how many are left before it, as a
dial sets them. -/
def Op.signal : Op → Option Nat
  | .setTunnelsCovered _ => some 3
  | .setTunnelUp _ => some 2
  | .setHealth _ _ => some 1
  | _ => none

/-- A publication comes before the table has changed since the dial has read it. -/
def timely (i : ι) (o : Op) (log : List (ι × Event Ans Env World)) : Bool :=
  o.signal.isNone || fresh Op.reads Op.alters i log

/-- What a dial has read and not yet published. -/
def Stage.reading : Stage → Option (Nat × Int)
  | .seen covered want => some (covered, want)
  | .derived covered want => some (covered, want)
  | .raised covered want => some (covered, want)
  | _ => none

/-- What the dials have read is the state of the table, where it is fresh. -/
abbrev Read (s : World × List (ι × Event Ans Env World)) : Prop :=
  Current Op.reads Op.alters Phase.next ⟨none, .clear⟩ (fun m r => m.stage.reading = some r)
    (fun w => w.cov.state) s

variable {i : ι} {o : Op} {e : Env} {a : Ans o} {s t : World × List (ι × Event Ans Env World)}
  {m : Phase} {r : Nat × Int}

theorem reading_of_not_reads (ho : o.reads = false) (h : (m.next o a).stage.reading = some r) :
    m.stage.reading = some r := by
  obtain ⟨joined, stage⟩ := m
  cases o with
  | state => cases ho
  | setTunnelsCovered n => cases stage <;> cases h
  | setTunnelUp n =>
    cases stage with
    | derived covered want => exact h
    | _ => cases h
  | join | leave | setHealth => cases h
  | _ => exact h

theorem Read.step (hs : Read s) (h : (machine ι).act i o e s = some (a, t)) : Read t := by
  refine Current.step ?_ (fun ho r => reading_of_not_reads ho) ?_ h hs
  · intro ho r hr
    cases o with
    | state =>
      obtain ⟨hans, hsame⟩ := Prod.mk.inj (machine_act h).1
      rw [← hsame, hans]
      generalize outcome Phase.next ⟨none, .clear⟩ (own i s.2) = m at hr
      obtain ⟨joined, stage⟩ := m
      cases stage with
      | altered | counted => exact Option.some.inj hr
      | _ => cases hr
    | _ => cases ho
  · intro ho
    rw [cov_of_not_alters h ho]

theorem read_start (discover : Bool) : Read (start ι discover endpoint).shared := by
  intro i r hfresh _
  cases hfresh

/-! ## Signals that are owed -/

/-- How many of the three signals a dial has still to set. -/
def Stage.left : Stage → Nat
  | .clear => 0
  | .altered => 3
  | .seen _ _ => 3
  | .counted => 2
  | .derived _ _ => 2
  | .raised _ _ => 1

/-- Signal `k` shows what the table says, or some dial has still to set it. -/
abbrev Shown {V : Type} (k : Nat) (shown wanted : World → V)
    (s : World × List (ι × Event Ans Env World)) : Prop :=
  Owed Phase.next ⟨none, .clear⟩ (fun m => k ≤ m.stage.left) shown wanted s

variable (endpoint i o s) in
/-- The condition on a step: the dial may do it, its publication is timely, and what the
dials have read is right where it is fresh. -/
structure Good : Prop where
  may : (phase i s.2).may endpoint o
  timely : timely i o s.2 = true
  read : Read s

/-- What a dial publishes is the state of the table. -/
theorem Good.state_eq (h : Good endpoint i o s) (ho : o.signal.isNone = false)
    (hr : (phase i s.2).stage.reading = some r) : s.1.cov.state = r := by
  have hfresh := h.timely
  unfold coverage.timely at hfresh
  rw [ho, Bool.false_or] at hfresh
  exact h.read i r hfresh hr

variable {k : Nat}

/-- A step of a dial that does not set signal `k` does not take it off its list. -/
theorem left_of_may (hk : k ≤ 3) (hmay : m.may endpoint o) (hsignal : o.signal ≠ some k)
    (hleft : k ≤ m.stage.left) : k ≤ (m.next o a).stage.left := by
  obtain ⟨joined, stage⟩ := m
  cases o with
  | join | leave => exact hk
  | state => rcases hmay with hstage | hstage <;> cases hstage <;> exact hleft
  | setTunnelsCovered n =>
    obtain ⟨want, hstage⟩ := hmay
    cases hstage
    have hne : 3 ≠ k := fun h => hsignal (congrArg some h)
    simp only [Phase.next, Stage.count, Stage.left] at hleft ⊢
    omega
  | setTunnelUp n =>
    obtain ⟨covered, want, hstage, _⟩ := hmay
    cases hstage
    have hne : 2 ≠ k := fun h => hsignal (congrArg some h)
    simp only [Phase.next, Stage.raise, Stage.left] at hleft ⊢
    omega
  | setHealth ok message =>
    obtain ⟨covered, want, hstage, _⟩ := hmay
    cases hstage
    have hne : 1 ≠ k := fun h => hsignal (congrArg some h)
    simp only [Phase.next, Stage.left] at hleft ⊢
    omega
  | _ => exact hleft

theorem left_of_alters (ho : o.alters = true) : (m.next o a).stage.left = 3 := by
  cases o with
  | join | leave => rfl
  | _ => cases ho

/-- Every step settles signal `k`, if the steps that set it set it right. -/
theorem Shown.step {V : Type} {shown wanted : World → V} (hk : k ≤ 3)
    (hmay : (phase i s.2).may endpoint o)
    (hset : o.signal = some k → shown (act o e s.1).2 = wanted (act o e s.1).2)
    (hkept : o.signal ≠ some k → shown (act o e s.1).2 = shown s.1)
    (hwanted : t.1.cov = s.1.cov → wanted t.1 = wanted s.1)
    (h : (machine ι).act i o e s = some (a, t)) (hs : Shown k shown wanted s) :
    Shown k shown wanted t := by
  have ht : (act o e s.1).2 = t.1 := by rw [(machine_act h).1]
  rw [ht] at hset hkept
  refine Owed.step ?_ h hs
  by_cases hsignal : o.signal = some k
  · exact .inr (Or.inl (hset hsignal))
  cases halters : o.alters with
  | true => exact .inl (hk.trans (left_of_alters halters).ge)
  | false =>
    refine .inr (Or.inr ⟨hkept hsignal, hwanted (cov_of_not_alters h halters), ?_⟩)
    exact left_of_may hk hmay hsignal

/-! ## The three signals -/

/-- The gauge `TunnelsCovered`. One that was never set reads as zero. -/
def shownCovered (w : World) : Nat := w.signals.tunnelsCovered.getD 0

/-- The gauge `TunnelUp`. -/
def shownUp (w : World) : Nat := w.signals.tunnelUp.getD 0

def shownHealth (endpoint : String) (w : World) : Bool × String :=
  w.signals.health.getD (tunnelHealth endpoint 0 0)

theorem shownCovered_step (hgood : Good endpoint i o s) (h : (machine ι).act i o e s = some (a, t))
    (hs : Shown 3 shownCovered (fun w => w.cov.state.1) s) :
    Shown 3 shownCovered (fun w => w.cov.state.1) t := by
  refine .step le_rfl hgood.may ?_ ?_ (fun hcov => by rw [hcov]) h hs
  · intro hsignal
    cases o with
    | setTunnelsCovered n =>
      obtain ⟨want, hstage⟩ := hgood.may
      have hstate := hgood.state_eq rfl (by rw [hstage]; rfl)
      exact (congrArg Prod.fst hstate).symm
    | _ => cases hsignal
  · intro hsignal
    cases o with
    | setTunnelsCovered n => exact absurd rfl hsignal
    | _ => rfl

theorem shownUp_step (hgood : Good endpoint i o s) (h : (machine ι).act i o e s = some (a, t))
    (hs : Shown 2 shownUp (fun w => upGauge w.cov.state.1) s) :
    Shown 2 shownUp (fun w => upGauge w.cov.state.1) t := by
  refine .step (by decide) hgood.may ?_ ?_ (fun hcov => by rw [hcov]) h hs
  · intro hsignal
    cases o with
    | setTunnelUp n =>
      obtain ⟨covered, want, hstage, rfl⟩ := hgood.may
      have hstate := hgood.state_eq rfl (by rw [hstage]; rfl)
      exact (congrArg (fun r => upGauge r.1) hstate).symm
    | _ => cases hsignal
  · intro hsignal
    cases o with
    | setTunnelUp n => exact absurd rfl hsignal
    | _ => rfl

theorem shownHealth_step (hgood : Good endpoint i o s) (h : (machine ι).act i o e s = some (a, t))
    (hs : Shown 1 (shownHealth endpoint)
      (fun w => tunnelHealth endpoint w.cov.state.1 w.cov.state.2) s) :
    Shown 1 (shownHealth endpoint)
      (fun w => tunnelHealth endpoint w.cov.state.1 w.cov.state.2) t := by
  refine .step (by decide) hgood.may ?_ ?_ (fun hcov => by rw [hcov]) h hs
  · intro hsignal
    cases o with
    | setHealth ok message =>
      obtain ⟨covered, want, hstage, hmessage⟩ := hgood.may
      have hstate := hgood.state_eq rfl (by rw [hstage]; rfl)
      have hright : tunnelHealth endpoint s.1.cov.state.1 s.1.cov.state.2 = (ok, message) := by
        rw [hstate, hmessage]
      exact hright.symm
    | _ => cases hsignal
  · intro hsignal
    cases o with
    | setHealth ok message => exact absurd rfl hsignal
    | _ => rfl

theorem upGauge_eq_one (covered : Nat) : upGauge covered = 1 ↔ 0 < covered := by
  simp [upGauge]

theorem tunnelHealth_ok (endpoint : String) (covered : Nat) (want : Int) :
    (tunnelHealth endpoint covered want).1 = true ↔ 0 < covered ∧ ¬(0 < want ∧ covered < want) := by
  unfold tunnelHealth
  split_ifs with h1 h2
  · simp [h1]
  · simp [h2]
  · simp only [true_iff]
    exact ⟨Nat.pos_of_ne_zero h1, h2⟩

/-- If every dial publishes what it has read before another one joins or leaves, then whenever no
publication is under way the gauge is the number of covered replicas, the tunnel is up just when one
is covered, and the endpoint is healthy just when as many are covered as it wants. -/
theorem the_signals_show_the_coverage_at_rest (discover : Bool) (endpoint : String)
    (ls : List (ι × Env)) {c : Conf Ans ι (World × List (ι × Event Ans Env World)) String}
    (hrun : run (machine ι) (start ι discover endpoint) ls = some c)
    (htimely : Meets (machine ι) (fun i o _ s => timely i o s.2 = true)
      (start ι discover endpoint) ls) (hrest : ∀ i, (phase i c.shared.2).stage = .clear) :
    shownCovered c.shared.1 = c.shared.1.cov.state.1 ∧
    (shownUp c.shared.1 = 1 ↔ 0 < c.shared.1.cov.state.1) ∧
    ((shownHealth endpoint c.shared.1).1 = true ↔ 0 < c.shared.1.cov.state.1 ∧
      ¬(0 < c.shared.1.cov.state.2 ∧ c.shared.1.cov.state.1 < c.shared.1.cov.state.2)) := by
  have hobeys : ∀ j : ι, ((start ι discover endpoint).thread j).Obeys Phase.next
      (Phase.may endpoint) (fun m _ => m.stage = .clear ∧ (m.joined = none ∨ m.joined = some ""))
      (phase j (start ι discover endpoint).shared.2) := fun _ => dialOnce_obeys
  have hread := ((meets_obeys ls hobeys).and htimely).keeps
    (fun _ _ _ _ _ _ _ hs hact => Read.step hs hact) (read_start discover)
  have hgood : Meets (machine ι) (fun i o _ s => Good endpoint i o s)
      (start ι discover endpoint) ls :=
    hread.mono fun _ _ _ _ h => ⟨h.1.1, h.1.2, h.2⟩
  -- at rest nobody owes a signal
  have hright : ∀ {V : Type} {k : Nat} {shown wanted : World → V}, 1 ≤ k →
      Shown k shown wanted c.shared → shown c.shared.1 = wanted c.shared.1 := by
    intro V k shown wanted hk hshown
    rcases hshown with hshown | ⟨i, howes⟩
    · exact hshown
    have hzero : (phase i c.shared.2).stage.left = 0 := by rw [hrest i]; rfl
    have hle : k ≤ (phase i c.shared.2).stage.left := howes
    omega
  have hcovered := run_keeps (fun _ _ _ _ _ _ hg hs hact => shownCovered_step hg hact hs)
    (Or.inl rfl) hgood hrun
  have hup := run_keeps (fun _ _ _ _ _ _ hg hs hact => shownUp_step hg hact hs)
    (Or.inl rfl) hgood hrun
  have hhealth := run_keeps (fun _ _ _ _ _ _ hg hs hact => shownHealth_step hg hact hs)
    (Or.inl rfl) hgood hrun
  refine ⟨hright (by decide) hcovered, ?_, ?_⟩
  · rw [hright (by decide) hup]
    exact upGauge_eq_one _
  · rw [hright (by decide) hhealth]
    exact tunnelHealth_ok endpoint _ _

/-- One dial covers a replica after the other. -/
def oneByOne : List (Fin 2 × Env) :=
  (numbered [0]).flatMap (steps · "hub-0" 9) ++ (numbered [1]).flatMap (steps · "hub-1" 9)

theorem the_signals_show_two_covered_replicas :
    ∃ c, run (machine (Fin 2)) (start (Fin 2) true "wss://hub") oneByOne = some c ∧
      shownCovered c.shared.1 = 2 ∧ (shownHealth "wss://hub" c.shared.1).1 = true := by
  have h := the_signals_show_the_coverage_at_rest true "wss://hub" oneByOne rfl (by decide)
    (by decide)
  exact ⟨_, rfl, h.1.trans (by decide), h.2.2.mpr (by decide)⟩

/-- A dial that has read the table before another one joined publishes after it: the endpoint
covers both replicas that it wants, and stays unhealthy, or its gauge stays at one. -/
theorem a_stale_reading_may_be_published_last :
    (∃ c, run (machine (Fin 2)) (start (Fin 2) true "wss://hub")
        (steps 0 "hub-0" 7 ++ steps 1 "hub-1" 9 ++ steps 0 "hub-0" 2) = some c ∧
      (∀ i, (phase i c.shared.2).stage = .clear) ∧ c.shared.1.cov.state = (2, 2) ∧
      c.shared.1.signals.health = some (false, "covering 1 of 2 hub replicas via wss://hub")) ∧
    ∃ c, run (machine (Fin 2)) (start (Fin 2) true "wss://hub")
        (steps 0 "hub-0" 5 ++ steps 1 "hub-1" 9 ++ steps 0 "hub-0" 4) = some c ∧
      (∀ i, (phase i c.shared.2).stage = .clear) ∧ c.shared.1.cov.state = (2, 2) ∧
      c.shared.1.signals.tunnelsCovered = some 1 := by
  refine ⟨⟨_, rfl, by decide, by decide, ?_⟩, ⟨_, rfl, by decide, by decide, rfl⟩⟩
  decide

end prom_fleet.coverage
