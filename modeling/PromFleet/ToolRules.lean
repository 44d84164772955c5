-- What a request has passed when it is sent: one lemma for each check, and one for each
-- tool that gathers what its checks let through.
import PromFleet.ToolQueries
import PromFleet.Fallible

namespace prom_fleet.mcptools

open fleet gotime render List

variable (a : RangeAsk)

/-- The request for the step of a range at a scrape interval. -/
def RangeAsk.stepRequest (scrape : Int) : StepRequest :=
  ⟨a.checked, a.finish, a.userStep, scrape, a.maxPoints⟩

/-- What is rounded up, which no scrape interval decides. -/
def RangeAsk.unsnapped : Int := (a.stepRequest 0).unsnapped

namespace Tools

/-! ## What the arguments ask for -/

variable (t : Tools)

/-- What a time argument says; zero if nothing. -/
def timeOf (now : Int) (s : String) : Int := (t.parseTime s now).toOption.getD 0

def instantOf (now : Int) (s : String) : Int :=
  if t.timeOf now s = 0 then now else t.timeOf now s

def rangeAsk (p : Principal) (now : Int) (startArg endArg stepArg : String)
    (points : Int) (targets : List Cluster) : RangeAsk where
  targets := targets
  userStep := (t.parseDuration stepArg).toOption.getD 0
  maxPoints := lowered points (p.scope.elim 0 fun scope => scope.limits.maxPoints)
  checked :=
    if t.timeOf now startArg = 0 then timeAdd (t.instantOf now endArg) (-defaultRangeSpan)
    else t.timeOf now startArg
  finish := t.instantOf now endArg

/-- The widest scrape interval of the targets; zero if none is positive. -/
def widest (targets : List Cluster) : Int :=
  targets.foldr (fun c widest => max (t.scrapeOf c) widest) 0

/-- The step of a range: what is rounded up, or the widest scrape interval. -/
def stepOf : Int := max (snapUp a.unsnapped) (t.widest a.targets)

variable {t : Tools} {p : Principal} {clock : Clock}

/-! ## The checks -/

variable {echo : List (String × Arg)}

theorem lookbackLimit_le : t.lookbackLimit p ≤ maxDuration := by
  have hmax := t.maxLookback_le
  unfold lookbackLimit
  split
  · exact hmax
  · split
    · exact (min_le_left _ _).trans hmax
    · exact hmax

theorem checkLookback_ok {instant later : Int} (h : t.checkLookback p instant later echo = .ok ()) :
    timeSub later instant ≤ t.lookbackLimit p := by
  unfold checkLookback at h
  dsimp only at h
  split at h
  · assumption
  · cases h

/-- A window that `resolveRange` lets through. -/
structure Window (p : Principal) (now start finish : Int) : Prop where
  ordered : start < finish
  span_le : timeSub finish start ≤ t.lookbackLimit p
  age_le : timeSub now start ≤ t.lookbackLimit p

variable {finish now start : Int}

theorem checkRange_ok {start' finish' : Int}
    (h : t.checkRange p start finish now echo = .ok (start', finish')) :
    start = start' ∧ finish = finish' ∧ t.Window p now start' finish' := by
  unfold checkRange at h
  dsimp only at h
  split at h
  · cases h
  rename_i hordered
  split at h
  · cases h
  rename_i hspan
  split at h
  · cases h
  rename_i hage
  cases h
  exact ⟨rfl, rfl, not_le.mp hordered, not_lt.mp hspan, not_lt.mp hage⟩

variable {field value cluster : String}

theorem timeArg_ok {parsed : Int}
    (h : t.timeArg field value cluster now = .ok parsed) : t.timeOf now value = parsed := by
  unfold timeOf
  rw [mapError_eq_ok.mp h]
  rfl

/-- A step of the caller is positive, or zero if none was given. -/
theorem durationArg_ok {d : Int}
    (h : t.durationArg field value cluster = .ok d) :
    (t.parseDuration value).toOption.getD 0 = d ∧ 0 ≤ d ∧ d ≤ maxDuration := by
  have h := mapError_eq_ok.mp h
  refine ⟨by rw [h]; rfl, ?_⟩
  unfold parseDuration at h
  dsimp only at h
  split at h
  · cases h
    decide
  split at h
  · cases h
  rename_i hparsed
  split at h
  · cases h
  rename_i hpos
  cases h
  exact ⟨(not_le.mp hpos).le, (parsePromDuration_mem hparsed).2⟩

theorem scrapeOf_le (c : Cluster) : t.scrapeOf c ≤ maxDuration := by
  unfold scrapeOf
  cases h : render.parsePromDuration t.lib (t.scrapeInterval c.id) with
  | none => decide
  | some d => exact (parsePromDuration_mem h).2

theorem limitsOf_ok {limits : fleet.Limits} (h : limitsOf p = .ok limits) :
    ∃ scope, p.scope = some scope ∧ scope.limits = limits := by
  unfold limitsOf at h
  split at h
  · cases h
  rename_i scope hscope
  cases h
  exact ⟨scope, hscope, rfl⟩

/-! ## The tools -/

variable {call : Call}

/-- An instant query carries one instant, which has passed the check. -/
theorem query_ok {arg : QueryIn} (h : t.query p clock arg = .ok call) :
    call.times = [t.instantOf clock.now arg.time] ∧
      timeSub clock.later (t.instantOf clock.now arg.time) ≤ t.lookbackLimit p := by
  obtain ⟨c, -, h⟩ := bind_eq_ok.mp h
  obtain ⟨format, -, h⟩ := bind_eq_ok.mp h
  obtain ⟨_, -, h⟩ := bind_eq_ok.mp h
  obtain ⟨_, -, h⟩ := bind_eq_ok.mp h
  obtain ⟨parsed, hparsed, h⟩ := bind_eq_ok.mp h
  obtain ⟨_, hcheck, h⟩ := bind_eq_ok.mp h
  obtain ⟨timeout, -, h⟩ := bind_eq_ok.mp h
  cases h
  obtain rfl := timeArg_ok hparsed
  exact ⟨rfl, checkLookback_ok hcheck⟩

/-- What is known of a range that is sent. -/
structure Planned (p : Principal) (now : Int) (a : RangeAsk) : Prop where
  window : t.Window p now a.checked a.finish
  userStep_nonneg : 0 ≤ a.userStep
  userStep_le : a.userStep ≤ maxDuration
  maxPoints_pos : 0 < a.maxPoints
  maxPoints_le : ∀ scope, p.scope = some scope → 0 < scope.limits.maxPoints →
    a.maxPoints ≤ scope.limits.maxPoints

variable {bound limit : Int}

theorem lowered_pos (h : 0 < bound) : 0 < lowered bound limit := by
  unfold lowered
  split
  · exact lt_min h ‹_›
  · exact h

theorem lowered_le (h : 0 < limit) : lowered bound limit ≤ limit := by
  unfold lowered
  rw [if_pos h]
  exact min_le_right _ _

theorem clampInt_pos {n fallback lo hi : Int} (hlo : 0 < lo) (hhi : 0 < hi) :
    0 < clampInt n fallback lo hi := by
  exact lt_min (hlo.trans_le (le_max_right _ _)) hhi

variable {targets : List Cluster}

/-- A range whose arguments pass the checks is asked for as they say. -/
theorem rangeAsk_ok {startArg endArg stepArg cluster : String} {points userStep : Int}
    {limits : fleet.Limits}
    (hrange : t.resolveRange p startArg endArg now echo = .ok (start, finish))
    (hstep : t.durationArg "step" stepArg cluster = .ok userStep)
    (hlimits : limitsOf p = .ok limits) (hpoints : 0 < points) :
    let a : RangeAsk := ⟨targets, userStep, lowered points limits.maxPoints, start, finish⟩
    a = t.rangeAsk p now startArg endArg stepArg points targets ∧ t.Planned p now a := by
  obtain ⟨parsed, hend, hrange⟩ := bind_eq_ok.mp hrange
  obtain ⟨parsed', hstart, hrange⟩ := bind_eq_ok.mp hrange
  obtain ⟨rfl, rfl, hwindow⟩ := checkRange_ok hrange
  obtain rfl := timeArg_ok hend
  obtain rfl := timeArg_ok hstart
  obtain ⟨rfl, hnonneg, hle⟩ := durationArg_ok hstep
  obtain ⟨scope, hscope, rfl⟩ := limitsOf_ok hlimits
  refine ⟨?_, hwindow, hnonneg, hle, lowered_pos hpoints, fun scope' hscope' hpos => ?_⟩
  · unfold rangeAsk instantOf
    rw [hscope]
    rfl
  · obtain rfl := Option.some.inj (hscope.symm.trans hscope')
    exact lowered_le hpos

variable {plan : RangePlan}

theorem queryRange_ok {arg : QueryRangeIn} (h : t.queryRange p clock arg = .ok (plan, call)) :
    t.Planned p clock.now plan.toRangeAsk ∧ plan.start = plan.checked ∧
      call.times = [plan.start, plan.finish] ∧
      ∃ c, t.clusterArg p arg.cluster = .ok c ∧ plan.toRangeAsk = t.rangeAsk p clock.now arg.start
          arg.finish arg.step (clampInt arg.maxPoints defaultMaxPoints 10 500) [c] ∧
        plan.step = (selectStep (plan.stepRequest (t.scrapeOf c))).1 := by
  obtain ⟨c, hc, h⟩ := bind_eq_ok.mp h
  obtain ⟨format, -, h⟩ := bind_eq_ok.mp h
  obtain ⟨_, -, h⟩ := bind_eq_ok.mp h
  obtain ⟨_, -, h⟩ := bind_eq_ok.mp h
  obtain ⟨⟨start, finish⟩, hrange, h⟩ := bind_eq_ok.mp h
  obtain ⟨userStep, hstep, h⟩ := bind_eq_ok.mp h
  obtain ⟨timeout, -, h⟩ := bind_eq_ok.mp h
  obtain ⟨limits, hlimits, h⟩ := bind_eq_ok.mp h
  cases h
  obtain ⟨hask, hplan⟩ := rangeAsk_ok hrange hstep hlimits
    (clampInt_pos (by decide : (0 : Int) < 10) (by decide : (0 : Int) < 500))
  exact ⟨hplan, rfl, rfl, c, hc, hask, rfl⟩

variable {arg : FanoutQueryIn}

theorem fanoutRange_ok (h : t.fanoutRange p clock arg targets = .ok plan) :
    t.Planned p clock.now plan.toRangeAsk ∧ plan.toRangeAsk = t.rangeAsk p clock.now arg.start
        arg.finish arg.step defaultMaxPoints targets ∧
      plan.step = (t.commonStep plan.targets plan.checked plan.finish plan.userStep
        plan.maxPoints).1 ∧
      ∃ aligned, alignUp t.lib plan.checked plan.step = .ok aligned ∧
        plan.start = min plan.finish aligned := by
  obtain ⟨⟨checked, finish⟩, hrange, h⟩ := bind_eq_ok.mp h
  obtain ⟨userStep, hstep, h⟩ := bind_eq_ok.mp h
  obtain ⟨limits, hlimits, h⟩ := bind_eq_ok.mp h
  obtain ⟨aligned, haligned, h⟩ := bind_eq_ok.mp h
  cases h
  obtain ⟨hask, hplan⟩ := rangeAsk_ok hrange hstep hlimits (by decide : 0 < defaultMaxPoints)
  refine ⟨hplan, hask, rfl, aligned, haligned, ?_⟩
  dsimp only
  split <;> omega

variable {failures : List ClusterFailure} {maxClusters : Int}

variable (h : t.selectClusters p arg maxClusters = .ok (targets, failures))

include h

/-- The targets and the clusters above the bound are what was selected, in order. -/
theorem selectClusters_ok :
    ∃ chosen known, t.selected p arg maxClusters = .ok (chosen, known) ∧ chosen ≠ [] ∧
      ∃ sorted : List Cluster, sorted.Perm chosen ∧ targets = sorted.take maxClusters.toNat ∧
        failures = known ++ (sorted.drop maxClusters.toNat).map (notQueried maxClusters) := by
  obtain ⟨⟨chosen, known⟩, hselected, h⟩ := bind_eq_ok.mp h
  dsimp only at h
  split at h
  · cases h
  rename_i hne
  cases h
  exact ⟨chosen, known, hselected, hne, _, perm_insertionSort _ chosen, rfl, rfl⟩

theorem targets_ne_nil (hmax : 0 < maxClusters) : targets ≠ [] := by
  obtain ⟨chosen, known, -, hne, sorted, hperm, rfl, -⟩ := selectClusters_ok h
  intro hnil
  rcases take_eq_nil_iff.mp hnil with hzero | hempty
  · omega
  · exact hne (perm_nil.mp (hempty ▸ hperm.symm))

omit h

theorem foldl_largest {α β : Type} (f : α → Int × β) (l : List α) (start : Int × β) :
    let best := l.foldl (fun best c => if best.1 < (f c).1 then f c else best) start
    start.1 ≤ best.1 ∧ (∀ c ∈ l, (f c).1 ≤ best.1) ∧
      (best = start ∨ ∃ c ∈ l, best = f c) := by
  induction l generalizing start with
  | nil => exact ⟨le_rfl, fun c hc => absurd hc not_mem_nil, .inl rfl⟩
  | cons a l ih =>
    dsimp only at ih ⊢
    rw [foldl_cons]
    obtain ⟨hstart, hall, hmem⟩ := ih (if start.1 < (f a).1 then f a else start)
    have hfirst : start.1 ≤ (if start.1 < (f a).1 then f a else start).1 ∧
        (f a).1 ≤ (if start.1 < (f a).1 then f a else start).1 := by
      split <;> omega
    refine ⟨hfirst.1.trans hstart, ?_, ?_⟩
    · intro c hc
      rcases mem_cons.mp hc with rfl | hc
      · exact hfirst.2.trans hstart
      · exact hall c hc
    · rcases hmem with hmem | ⟨c, hc, hmem⟩
      · rw [hmem]
        split
        · exact .inr ⟨a, mem_cons_self, rfl⟩
        · exact .inl rfl
      · exact .inr ⟨c, mem_cons_of_mem a hc, hmem⟩

theorem widest_largest (targets : List Cluster) : 0 ≤ t.widest targets ∧
      (∀ c ∈ targets, t.scrapeOf c ≤ t.widest targets) ∧ t.widest targets ≤ maxDuration ∧
      (t.widest targets = 0 ∨ ∃ c ∈ targets, t.widest targets = t.scrapeOf c) := by
  induction targets with
  | nil => exact ⟨le_rfl, fun c hc => absurd hc not_mem_nil, show (0 : Int) ≤ maxDuration by decide,
      .inl rfl⟩
  | cons c targets ih =>
    have hcons : t.widest (c :: targets) = max (t.scrapeOf c) (t.widest targets) := rfl
    have hle := scrapeOf_le (t := t) c
    rw [hcons]
    obtain ⟨hnonneg, hall, hmax, hmem⟩ := ih
    refine ⟨by omega, forall_mem_cons.mpr ⟨by omega, fun c' hc' => ?_⟩, by omega, ?_⟩
    · exact (hall c' hc').trans (le_max_right _ _)
    rcases max_cases (t.scrapeOf c) (t.widest targets) with ⟨heq, -⟩ | ⟨heq, -⟩
    · exact .inr ⟨c, mem_cons_self, heq⟩
    · rw [heq]
      exact hmem.imp id fun ⟨c', hc', h⟩ => ⟨c', mem_cons_of_mem c hc', h⟩

theorem stepOf_mem : 0 ≤ t.stepOf a ∧ t.stepOf a ≤ maxDuration := by
  obtain ⟨hnonneg, -, hmax, -⟩ := widest_largest (t := t) a.targets
  exact ⟨hnonneg.trans (le_max_right _ _), max_le (snapUp_le _) hmax⟩

/-- The step of a fan-out is the widest step of its targets. -/
theorem commonStep_eq {a : RangeAsk} (hne : a.targets ≠ []) :
    (t.commonStep a.targets a.checked a.finish a.userStep a.maxPoints).1 = t.stepOf a := by
  have hown : ∀ c, (selectStep (a.stepRequest (t.scrapeOf c))).1 = if 0 < t.scrapeOf c ∧
      snapUp a.unsnapped < t.scrapeOf c then t.scrapeOf c else snapUp a.unsnapped :=
    fun c => selectStep_step
  obtain ⟨hnonneg, hall, hmem⟩ := foldl_largest
    (fun c => selectStep (a.stepRequest (t.scrapeOf c))) a.targets (0, ⟨"", "", ""⟩)
  obtain ⟨-, hwide, -, hwidest⟩ := widest_largest (t := t) a.targets
  obtain ⟨c₀, hc₀⟩ := exists_mem_of_ne_nil _ hne
  refine le_antisymm ?_ (max_le ?_ ?_)
  · rcases hmem with hmem | ⟨c, hc, hmem⟩
    · exact (congrArg Prod.fst hmem).trans_le (stepOf_mem a).1
    · refine (congrArg Prod.fst hmem).trans_le ?_
      have hle := hwide c hc
      rw [hown]
      unfold stepOf
      split <;> omega
  · have hle := hall c₀ hc₀
    rw [hown] at hle
    refine le_trans ?_ hle
    split <;> omega
  · rcases hwidest with hzero | ⟨c, hc, hc'⟩
    · exact hzero.trans_le hnonneg
    · refine hc'.trans_le (le_trans ?_ (max_le hnonneg (hall c hc)))
      rw [hown]
      split <;> omega

theorem fanoutForm_ok {mode : FanoutMode} {ranged : Option RangePlan}
    {form : List (String × FormValue)}
    (h : t.fanoutForm p clock arg targets mode = .ok (ranged, form)) :
    (mode = .instant ∧ ranged = none ∧ timesOf form = [t.instantOf clock.now arg.time] ∧
        timeSub clock.later (t.instantOf clock.now arg.time) ≤ t.lookbackLimit p) ∨
      mode = .range ∧ ∃ plan, ranged = some plan ∧ timesOf form = [plan.start, plan.finish] ∧
        t.fanoutRange p clock arg targets = .ok plan := by
  cases mode with
  | instant =>
    obtain ⟨parsed, hparsed, h⟩ := bind_eq_ok.mp h
    obtain ⟨_, hcheck, h⟩ := bind_eq_ok.mp h
    cases h
    obtain rfl := timeArg_ok hparsed
    exact .inl ⟨rfl, rfl, rfl, checkLookback_ok hcheck⟩
  | range =>
    obtain ⟨plan, hplan, h⟩ := bind_eq_ok.mp h
    cases h
    exact .inr ⟨rfl, plan, rfl, rfl, hplan⟩

theorem parseMode_ok {s : String} {mode : FanoutMode} (h : t.parseMode s = .ok mode) :
    mode = .range ↔ s = "range" := by
  unfold parseMode at h
  dsimp only at h
  generalize hword : (if s = "" then "instant" else s) = word at h
  have hs : word = "range" ↔ s = "range" := by
    rw [← hword]
    split
    · simp [*]
    · rfl
  rw [← hs]
  split_ifs at h with hinstant hrange
  · cases h
    simp [hinstant]
  · cases h
    simp [hrange]

theorem fanoutQuery_ok {plan : FanoutPlan} (h : t.fanoutQuery p clock arg = .ok plan) :
    t.selectClusters p arg (clampInt arg.maxClusters 25 1 100) = .ok (plan.targets, plan.failures) ∧
      t.fanoutForm p clock arg plan.targets plan.mode = .ok (plan.ranged, plan.form) ∧
      (plan.mode = .range ↔ arg.mode = "range") ∧ 0 < plan.concurrency ∧ 0 < plan.maxSeries ∧
      t.validateExpr arg.query "" = .ok () ∧
      ∃ limits, limitsOf p = .ok limits ∧
        plan.maxSeries = lowered (clampInt arg.maxSeriesPerCluster 5 1 50) limits.maxSeries := by
  obtain ⟨mode, hmode, h⟩ := bind_eq_ok.mp h
  obtain ⟨failOnError, -, h⟩ := bind_eq_ok.mp h
  obtain ⟨_, hexpr, h⟩ := bind_eq_ok.mp h
  obtain ⟨_, -, h⟩ := bind_eq_ok.mp h
  obtain ⟨⟨targets, failures⟩, hselect, h⟩ := bind_eq_ok.mp h
  obtain ⟨deadline, -, h⟩ := bind_eq_ok.mp h
  obtain ⟨⟨ranged, form⟩, hform, h⟩ := bind_eq_ok.mp h
  obtain ⟨limits, hlimits, h⟩ := bind_eq_ok.mp h
  cases h
  exact ⟨hselect, hform, parseMode_ok hmode, clampInt_pos (by decide) (by decide),
    lowered_pos (clampInt_pos (by decide) (by decide)), hexpr, limits, hlimits, rfl⟩

end Tools

end prom_fleet.mcptools
