-- The law of the point budget: the step of a range that is sent is positive, at least what the
-- caller and the scrape intervals ask for, and wide enough for the budget. It fails where the
-- rounding up of the step overflows and no scrape interval makes up for it, and where a fan-out
-- moves its start back past the next point.
import PromFleet.LookbackLaws

namespace prom_fleet.mcptools

open fleet gotime render

/-- The points of the grid that `EncodeRange` allocates. -/
def gridPoints (start finish step : Int) : Int :=
  let span := timeSub finish start
  if 0 ≤ span ∧ 0 < step then span.tdiv step + 1 else 0

/-- The step that the budget needs, without a bound on numbers. -/
def RangeAsk.needed (a : RangeAsk) : Int := (timeSub a.finish a.checked).tdiv a.maxPoints + 1

/-- The step of the caller and the step that the budget needs can be rounded up in 64 bits, or a
scrape interval is as wide. A start that is moved back leaves room for no more points. -/
def Tools.Budgeted (t : Tools) (a : RangeAsk) (r : Request) : Prop :=
  (max a.userStep a.needed ≤ maxRounded ∨ max a.userStep a.needed ≤ t.widest a.targets) ∧
    (t.startOf a r < a.checked →
      timeSub a.finish (t.startOf a r) < a.maxPoints * t.stepOf a)

instance (t : Tools) (a : RangeAsk) (r : Request) : Decidable (t.Budgeted a r) :=
  inferInstanceAs (Decidable (_ ∧ _))

section Plans

variable {t : Tools} {p : Principal} {now : Int} {a : RangeAsk}

theorem gridPoints_le_iff {start finish step maxPoints : Int} (hstep : 0 < step)
    (h : start ≤ finish) :
    gridPoints start finish step ≤ maxPoints ↔ timeSub finish start < maxPoints * step := by
  have hspan : 0 ≤ timeSub finish start := by
    unfold timeSub minDuration maxDuration
    omega
  unfold gridPoints
  dsimp only
  rw [if_pos ⟨hspan, hstep⟩, points_le_iff hspan hstep]

variable (ha : t.Planned p now a)

include ha

theorem span_pos : 0 < timeSub a.finish a.checked := by
  have hordered := ha.window.ordered
  unfold timeSub minDuration maxDuration
  omega

theorem needed_le_iff {step : Int} : a.needed ≤ step ↔
    timeSub a.finish a.checked < a.maxPoints * step := by
  rw [RangeAsk.needed, points_le_iff (span_pos ha).le ha.maxPoints_pos, mul_comm]

/-- What is rounded up, if the budget needs no more than a 64-bit number. -/
theorem unsnapped_ask (hneed : a.needed ≤ maxDuration) :
    a.unsnapped = max a.userStep a.needed := by
  have hpoints : (a.stepRequest 0).points = a.maxPoints := if_neg (not_le.mpr ha.maxPoints_pos)
  have hspan : (a.stepRequest 0).span = timeSub a.finish a.checked := max_eq_left (span_pos ha).le
  have heq := unsnapped_eq (r := a.stepRequest 0) (hspan ▸ span_pos ha)
    (by rw [hspan, hpoints]; exact hneed)
  rw [hspan, hpoints] at heq
  exact heq

theorem needed_pos : 0 < a.needed := by
  have := Int.tdiv_nonneg (span_pos ha).le ha.maxPoints_pos.le
  unfold RangeAsk.needed
  omega

/-- The step is wide enough if and only if it can be rounded up or a scrape interval is. -/
theorem wide_iff : max a.userStep a.needed ≤ t.stepOf a ↔
    max a.userStep a.needed ≤ maxRounded ∨
      max a.userStep a.needed ≤ t.widest a.targets := by
  have hneeded := needed_pos ha
  have huser := ha.userStep_le
  have hmax := (Tools.stepOf_mem (t := t) a).2
  have hrounded : maxRounded ≤ maxDuration := by decide
  unfold Tools.stepOf at *
  constructor
  · intro h
    by_contra hnot
    have hsnap := snapUp_neg (d := max a.userStep a.needed) (by omega) (by omega)
    rw [← unsnapped_ask ha (by omega)] at hsnap
    omega
  · rintro (h | h)
    · rw [unsnapped_ask ha (by omega)]
      exact (snapUp_up (by omega) h).1.trans (le_max_left _ _)
    · exact h.trans (le_max_right _ _)

omit ha in
theorem startOf_le {r : Request} (h : a.checked ≤ a.finish) : t.startOf a r ≤ a.finish := by
  unfold Tools.startOf
  split
  · split
    · exact min_le_left _ _
    · exact h
  · exact h

end Plans

/-! ## The law -/

def rangeOf (start finish step : String) : QueryRangeIn where
  cluster := "east"
  query := "up"
  start := start
  finish := finish
  step := step
  maxPoints := 0
  maxSeries := 0
  timeout := ""
  format := ""

/-- A start that the alignment cuts makes room for one point more. -/
example :
    (Tools.dispatched { smallTools with scrapeInterval := fun _ => "15s" } onlyEast
        (stopped (noon + 200000000))
        (.fanoutQuery (fanoutRangeOf "now-1799700ms" "now"))).toOption.map (fun x =>
          x.1.map fun plan => (plan.maxPoints, gridPoints plan.start plan.finish plan.step)) =
      some (some (120, 121)) := by
  decide +kernel

end prom_fleet.mcptools
