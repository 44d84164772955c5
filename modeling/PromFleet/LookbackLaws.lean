-- The lookback law: no instant that reaches a cluster lies before the lookback limit, and when it
-- fails. An instant is sent as a 64-bit count, and a fan-out moves its start to a grid.
import PromFleet.ToolRules

namespace prom_fleet.mcptools

open fleet gotime render List

/-- A call of one of the query tools. -/
inductive Request where
  | query (arg : QueryIn)
  | queryRange (arg : QueryRangeIn)
  | fanoutQuery (arg : FanoutQueryIn)

variable (t : Tools)

/-- What a call hands to the proxy: the plan of a range, and the requests. -/
def Tools.dispatched (p : Principal) (clock : Clock) :
    Request → Except Refusal (Option RangePlan × List Call)
  | .query arg => (t.query p clock arg).map fun call => (none, [call])
  | .queryRange arg => (t.queryRange p clock arg).map fun x => (some x.1, [x.2])
  | .fanoutQuery arg =>
    (t.fanoutQuery p clock arg).map fun plan => (plan.ranged, plan.targets.map plan.call)

/-! ## What a request is asked for -/

def Request.time : Request → String
  | .query arg => arg.time
  | .queryRange _ => ""
  | .fanoutQuery arg => arg.time

/-- What a range is asked for; no value for a request at one instant. -/
def Tools.asked (p : Principal) (now : Int) : Request → Option RangeAsk
  | .query _ => none
  | .queryRange arg =>
    some (t.rangeAsk p now arg.start arg.finish arg.step
      (clampInt arg.maxPoints defaultMaxPoints 10 500)
      (t.clusterArg p arg.cluster).toOption.toList)
  | .fanoutQuery arg =>
    if arg.mode = "range" then
      some (t.rangeAsk p now arg.start arg.finish arg.step defaultMaxPoints
        ((t.selectClusters p arg (clampInt arg.maxClusters 25 1 100)).toOption.elim []
          Prod.fst))
    else none

/-- The start of a window as it is sent: a fan-out aligns it to the step. -/
def Tools.startOf (a : RangeAsk) : Request → Int
  | .fanoutQuery _ =>
    match alignUp t.lib a.checked (t.stepOf a) with
    | .ok aligned => min a.finish aligned
    | .error _ => a.checked
  | _ => a.checked

/-- The instants that are asked for, each with the one that is sent for it. -/
def Tools.instants (p : Principal) (now : Int) (r : Request) : List (Int × Int) :=
  match t.asked p now r with
  | some a => [(a.checked, t.startOf a r), (a.finish, a.finish)]
  | none => [(t.instantOf now r.time, t.instantOf now r.time)]

/-- An instant that `UnixNano` can count. -/
abbrev Countable (s : Int) : Prop := minDuration ≤ s - unixEpoch ∧ s - unixEpoch ≤ maxDuration

/-- The instant that is sent for a checked one stays inside the limit. If it can be counted, that is
in doubt only where it lies before the checked one, or where the limit is the largest duration, at
which every age stops. If not, the count that is sent must be inside the limit by itself. -/
def Tools.Kept (p : Principal) (now checked sent : Int) : Prop :=
  (Countable sent → sent < checked ∨ t.lookbackLimit p = maxDuration →
    now - sent ≤ t.lookbackLimit p) ∧
  (¬Countable sent → now - unixEpoch - t.lookbackLimit p ≤ unixNano sent)

instance (t : Tools) (p : Principal) (now checked sent : Int) :
    Decidable (t.Kept p now checked sent) :=
  inferInstanceAs (Decidable (_ ∧ _))

section Sent

variable {t : Tools} {p : Principal} {clock : Clock} {r : Request} {ranged : Option RangePlan}
  {calls : List Call}

/-- The step of one target is the step of the range, or negative. -/
theorem selectStep_stepOf {a : RangeAsk} {c : Cluster} (h : a.targets = [c]) :
    let step := (selectStep (a.stepRequest (t.scrapeOf c))).1
    step = t.stepOf a ∨ step < 0 ∧ t.stepOf a = 0 := by
  have hwidest : t.widest a.targets = max (t.scrapeOf c) 0 := by rw [h]; rfl
  have hunsnapped : (a.stepRequest (t.scrapeOf c)).unsnapped = a.unsnapped := rfl
  unfold Tools.stepOf
  rw [selectStep_step, hwidest, hunsnapped]
  have hscrape : (a.stepRequest (t.scrapeOf c)).scrapeInterval = t.scrapeOf c := rfl
  rw [hscrape]
  dsimp only
  split <;> omega

/-- What is sent is what was asked for, and it has passed the checks. -/
theorem dispatched_ok (h : t.dispatched p clock r = .ok (ranged, calls)) : calls ≠ [] ∧
      ((ranged = none ∧ t.asked p clock.now r = none ∧
          timeSub clock.later (t.instantOf clock.now r.time) ≤ t.lookbackLimit p ∧
          ∀ call ∈ calls, call.times = [t.instantOf clock.now r.time]) ∨
        ∃ plan, ranged = some plan ∧ t.asked p clock.now r = some plan.toRangeAsk ∧
          t.Planned p clock.now plan.toRangeAsk ∧ plan.targets ≠ [] ∧
          plan.start = t.startOf plan.toRangeAsk r ∧
          (plan.step = t.stepOf plan.toRangeAsk ∨
            plan.step < 0 ∧ t.stepOf plan.toRangeAsk = 0) ∧
          ∀ call ∈ calls, call.times = [plan.start, plan.finish]) := by
  cases r with
  | query arg =>
    obtain ⟨sent, hsent, hx⟩ := map_eq_ok.mp h
    cases hx
    obtain ⟨htimes, hage⟩ := Tools.query_ok hsent
    exact ⟨by simp, .inl ⟨rfl, rfl, hage, forall_mem_singleton.mpr htimes⟩⟩
  | queryRange arg =>
    obtain ⟨⟨plan, sent⟩, hsent, hx⟩ := map_eq_ok.mp h
    cases hx
    obtain ⟨hplan, hstart, htimes, c, hc, hask, hstep⟩ := Tools.queryRange_ok hsent
    have htargets : plan.targets = [c] := congrArg RangeAsk.targets hask
    refine ⟨by simp, .inr ⟨plan, rfl, ?_, hplan, by simp [htargets], hstart, ?_,
      forall_mem_singleton.mpr htimes⟩⟩
    · rw [Tools.asked, hc, hask]
      rfl
    · exact hstep ▸ selectStep_stepOf htargets
  | fanoutQuery arg =>
    obtain ⟨plan, hsent, hx⟩ := map_eq_ok.mp h
    obtain ⟨rfl, rfl⟩ := Prod.mk.inj hx
    obtain ⟨hselect, hform, hmode, -⟩ := Tools.fanoutQuery_ok hsent
    have hne := Tools.targets_ne_nil hselect (Tools.clampInt_pos (by decide) (by decide))
    have hcalls : ∀ times, timesOf plan.form = times →
        ∀ call ∈ plan.targets.map plan.call, call.times = times := by
      intro times htimes call hcall
      obtain ⟨c, -, rfl⟩ := mem_map.mp hcall
      exact htimes
    refine ⟨by simpa using hne, ?_⟩
    rcases Tools.fanoutForm_ok hform with
      ⟨hinstant, hnone, htimes, hage⟩ | ⟨hranged, range, hsome, htimes, hrange⟩
    · refine .inl ⟨hnone, if_neg fun h => ?_, hage, hcalls _ htimes⟩
      rw [hmode.mpr h] at hinstant
      cases hinstant
    · obtain ⟨hplan, hask, hstep, aligned, haligned, hstart⟩ := Tools.fanoutRange_ok hrange
      have htargets : range.targets = plan.targets := congrArg RangeAsk.targets hask
      have hne' : range.targets ≠ [] := htargets ▸ hne
      rw [Tools.commonStep_eq hne'] at hstep
      refine .inr ⟨range, hsome, ?_, hplan, hne', ?_, .inl hstep, hcalls _ htimes⟩
      · rw [Tools.asked, if_pos (hmode.mp hranged), hselect, hask]
        rfl
      · rw [Tools.startOf, ← hstep, haligned, hstart]

/-- The count that is sent is inside the limit if and only if the instant is kept. -/
theorem le_unixNano_iff {now checked sent : Int}
    (hchecked : t.lookbackLimit p ≠ maxDuration → now - checked ≤ t.lookbackLimit p) :
    now - unixEpoch - t.lookbackLimit p ≤ unixNano sent ↔ t.Kept p now checked sent := by
  by_cases hmem : Countable sent
  · have hcount : unixNano sent = sent - unixEpoch := wrap64_of_mem hmem.1 hmem.2
    refine ⟨fun h => ⟨fun _ _ => by omega, fun hno => absurd hmem hno⟩, fun h => ?_⟩
    by_cases hmax : t.lookbackLimit p = maxDuration
    · have := h.1 hmem (.inr hmax)
      omega
    · have hage := hchecked hmax
      by_contra hlt
      have := h.1 hmem (.inl (by omega))
      omega
  · exact ⟨fun h => ⟨fun hyes => absurd hyes hmem, fun _ => h⟩, fun h => h.2 hmem⟩

theorem age_of_timeSub {now checked : Int} (h : timeSub now checked ≤ t.lookbackLimit p)
    (hlimit : t.lookbackLimit p ≠ maxDuration) : now - checked ≤ t.lookbackLimit p := by
  have hle := Tools.lookbackLimit_le (t := t) (p := p)
  unfold timeSub minDuration at *
  omega

theorem sent_of_dispatched (h : t.dispatched p clock r = .ok (ranged, calls)) :
    (∀ call ∈ calls, call.times = (t.instants p clock.now r).map Prod.snd) ∧
      ∀ x ∈ t.instants p clock.now r, t.lookbackLimit p ≠ maxDuration →
        clock.now - x.1 ≤ t.lookbackLimit p := by
  have hclock := clock.now_le
  unfold Tools.instants
  rcases (dispatched_ok h).2 with
    ⟨-, hask, hage, htimes⟩ | ⟨plan, -, hask, hplan, -, hstart, -, htimes⟩
  · rw [hask]
    refine ⟨htimes, fun x hx hmax => ?_⟩
    have := age_of_timeSub hage hmax
    rw [mem_singleton.mp hx]
    dsimp only
    omega
  · rw [hask]
    have hordered := hplan.window.ordered
    refine ⟨fun call hcall => by simp [htimes call hcall, hstart], fun x hx hmax => ?_⟩
    have := age_of_timeSub hplan.window.age_le hmax
    rcases mem_pair.mp hx with rfl | rfl <;> dsimp only <;> omega

end Sent

/-! ## The law -/

/-- A library that reads no floats and no dates: the texts below have none. -/
def plainLib : GoLib where
  parseFloat _ := none
  timeParse _ _ := none
  wholeSeconds d := d / second
  wholeSeconds_nonneg d hd := Int.ediv_nonneg hd (by decide)
  wholeSeconds_le d hd := Int.ediv_le_ediv (by decide) (by unfold second; omega)

def smallTools : Tools where
  texts := plainTexts
  lib := plainLib
  fleet := fleetOf ["east"]
  scrapeInterval _ := "30s"
  analyzePromQL _ := ⟨true, "", 0⟩
  tokenCeiling := 25000
  maxLookback := 90 * day
  fanoutConcurrency := 8
  maxLookback_pos := by decide
  maxLookback_le := by decide
  fanoutConcurrency_pos := by decide
  fanoutConcurrency_le := by decide

/-- Noon of an August day in 2026. -/
def noon : Int := unixEpoch + 1788004800 * second

def stopped (now : Int) : Clock := ⟨now, now, Int.le_refl _⟩

def fanoutRangeOf (start finish : String) : FanoutQueryIn where
  query := "up"
  clusters := ["east"]
  labelSelector := ∅
  mode := "range"
  time := ""
  start := start
  finish := finish
  step := ""
  maxClusters := 0
  maxSeriesPerCluster := 0
  concurrency := 0
  deadline := ""
  onError := ""

/-- Half a second after midnight, a fan-out over ninety days reaches half a second too far
back. -/
example :
    (smallTools.dispatched onlyEast (stopped (noon + 12 * hour + 500000000))
        (.fanoutQuery (fanoutRangeOf "now-90d" "now"))).toOption.map (fun x =>
          x.1.map fun plan => plan.start) =
      some (some (noon + 12 * hour - 90 * day)) := by
  decide +kernel

end prom_fleet.mcptools
