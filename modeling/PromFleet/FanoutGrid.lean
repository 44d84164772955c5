-- The grid of a fan-out: the start that is sent is the first multiple of the common step in the
-- window that was checked, and when it is not. The alignment counts whole seconds.
import PromFleet.LookbackLaws

namespace prom_fleet.mcptools

open fleet gotime render

/-- The instant of a multiple of the step since the Unix epoch. -/
def gridInstant (step k : Int) : Int := unixEpoch + k * step

/-- The first multiple of the step from `s` on. -/
def firstMultiple (step s : Int) : Int := gridInstant step (-((unixEpoch - s) / step))

section Instants

variable {step s : Int}

theorem firstMultiple_spec (hstep : 0 < step) : s ≤ firstMultiple step s ∧
      ∀ k, s ≤ gridInstant step k → firstMultiple step s ≤ gridInstant step k := by
  have hdown := Int.ediv_mul_le (unixEpoch - s) hstep.ne'
  unfold firstMultiple gridInstant
  rw [Int.neg_mul]
  refine ⟨by omega, fun k hk => ?_⟩
  have hle : -k ≤ (unixEpoch - s) / step := by
    rw [Int.le_ediv_iff_mul_le hstep, Int.neg_mul]
    omega
  have := Int.mul_le_mul_of_nonneg_right hle hstep.le
  rw [Int.neg_mul] at this
  omega

/-- The next multiple of `sec` after `x` is not above any multiple from `x` on. -/
theorem next_multiple_le {x sec k : Int} (hsec : 0 < sec) (hrem : x % sec ≠ 0)
    (h : x ≤ k * sec) : (x / sec + 1) * sec ≤ k * sec := by
  have hlt : x < k * sec := lt_of_le_of_ne h fun heq => hrem (by simp [heq])
  exact Int.mul_le_mul_of_nonneg_right (Int.ediv_lt_of_lt_mul hsec hlt) hsec.le

theorem timeUnix_whole {x : Int} (hlow : minDuration ≤ x) (hhigh : x ≤ maxDuration / 2) :
    timeUnix x 0 = x * second + unixEpoch := by
  have hmem : wrap64 (x + 0 / second + 62135596800) = x + 62135596800 := by
    rw [Int.zero_ediv, add_zero]
    refine wrap64_of_mem ?_ ?_ <;> unfold maxDuration minDuration at * <;> omega
  unfold timeUnix unixEpoch
  rw [hmem]
  unfold second
  omega

/-- The next multiple of `sec` from the second `x` on. Before 1970 it is the one after that. -/
def upSecond (sec x : Int) : Int :=
  if x % sec = 0 then x else if 0 ≤ x then x - x % sec + sec else x - x % sec + 2 * sec

/-- The instant that a start is aligned to, by the Unix seconds that it counts. -/
def alignedStart (sec s : Int) : Int := timeUnix (upSecond sec (unix s)) 0

theorem alignUp_eq {L : GoLib} (hnonneg : 0 ≤ L.wholeSeconds step) :
    alignUp L s step = if L.wholeSeconds step = 0 then .error .crash
      else .ok (alignedStart (L.wholeSeconds step) s) := by
  unfold alignUp alignedStart upSecond
  dsimp only
  generalize L.wholeSeconds step = sec at *
  split
  · rfl
  by_cases hzero : unix s % sec = 0
  · rw [Int.tmod_eq_zero_of_dvd (Int.dvd_of_emod_eq_zero hzero), if_pos rfl, if_pos hzero]
  rw [if_neg hzero]
  by_cases hx : 0 ≤ unix s
  · rw [Int.tmod_eq_emod_of_nonneg hx, if_neg hzero, if_pos hx]
  · have hdvd : ¬sec ∣ unix s := fun h => hzero (Int.emod_eq_zero_of_dvd h)
    have hlt := Int.emod_lt_of_pos (unix s) (by omega : 0 < sec)
    have htmod : (unix s).tmod sec = unix s % sec - sec := by
      simp [Int.tmod_eq_emod, hx, hdvd, Int.natAbs_of_nonneg hnonneg]
    rw [htmod, if_neg (by omega), if_neg hx]
    congr 2
    omega

section Whole

variable {sec : Int} (hsec : 0 < sec) (hwhole : sec * second = step) (hmax : step ≤ maxDuration)
  (hlow : unixEpoch ≤ s) (hhigh : s - unixEpoch ≤ maxDuration)

include hsec hwhole hmax hlow hhigh

/-- The alignment to a whole number of seconds gives the first multiple of the step, unless it cuts
a part of a second off the start. -/
theorem alignedStart_whole : let x := (s - unixEpoch) / second
    if s % second = 0 ∨ x % sec ≠ 0 then alignedStart sec s = firstMultiple step s
      else alignedStart sec s < s := by
  have hpos : 0 < step := hwhole ▸ Int.mul_pos hsec (by decide)
  obtain ⟨hup, hleast⟩ := firstMultiple_spec (s := s) hpos
  have hgrid : ∀ k, gridInstant step k = unixEpoch + k * sec * second := by
    intro k
    rw [gridInstant, ← hwhole, mul_assoc]
  obtain ⟨k, hk⟩ : ∃ k, firstMultiple step s = unixEpoch + k * sec * second := ⟨_, hgrid _⟩
  have hunix : unix s = (s - unixEpoch) / second := by
    unfold unix wrap64 maxDuration second at *
    omega
  have hdiv := Int.emod_add_mul_ediv ((s - unixEpoch) / second) sec
  rw [mul_comm sec] at hdiv
  have hrange := Int.emod_lt_of_pos ((s - unixEpoch) / second) hsec
  have hrange' := Int.emod_nonneg ((s - unixEpoch) / second) hsec.ne'
  have hsmall : alignedStart sec s = upSecond sec (unix s) * second + unixEpoch := by
    unfold alignedStart upSecond
    rw [hunix]
    unfold second at *
    refine timeUnix_whole ?_ ?_
    · unfold minDuration
      split_ifs <;> omega
    · unfold maxDuration at *
      split_ifs <;> omega
  rw [hsmall, hunix, upSecond, if_pos (by unfold second; omega : 0 ≤ (s - unixEpoch) / second)]
  dsimp only
  generalize hx : (s - unixEpoch) / second = x at *
  unfold unixEpoch second at *
  by_cases hzero : x % sec = 0
  · have hfirst := hleast (x / sec)
    rw [hgrid] at hfirst
    rw [if_pos hzero]
    split <;> omega
  · rw [if_neg hzero, if_pos (.inr hzero)]
    have hnext : (x / sec + 1) * sec = x - x % sec + sec := by
      rw [Int.add_mul]
      omega
    have hfirst := hleast (x / sec + 1)
    rw [hgrid, hnext] at hfirst
    have hle := next_multiple_le (k := k) hsec hzero (by omega)
    omega

end Whole

end Instants

/-- The start is the first multiple of the step in the window, or the end if there is none. -/
structure OnGrid (checked finish step start : Int) : Prop where
  checked_le : checked ≤ start
  le_finish : start ≤ finish
  first : ∀ k, checked ≤ gridInstant step k → gridInstant step k ≤ finish →
    start ≤ gridInstant step k
  multiple : (∃ k, checked ≤ gridInstant step k ∧ gridInstant step k ≤ finish) →
    ∃ k, start = gridInstant step k
  last : (¬∃ k, checked ≤ gridInstant step k ∧ gridInstant step k ≤ finish) → start = finish

theorem onGrid_iff {checked finish step start : Int} (hstep : 0 < step) (h : checked ≤ finish) :
    OnGrid checked finish step start ↔ start = min finish (firstMultiple step checked) := by
  obtain ⟨hup, hleast⟩ := firstMultiple_spec (s := checked) hstep
  obtain ⟨k, hk⟩ : ∃ k, firstMultiple step checked = gridInstant step k := ⟨_, rfl⟩
  constructor
  · intro hgrid
    by_cases hin : firstMultiple step checked ≤ finish
    · obtain ⟨k', hk'⟩ := hgrid.multiple ⟨k, hk ▸ hup, hk ▸ hin⟩
      have hle := hgrid.first k (hk ▸ hup) (hk ▸ hin)
      have hge := hleast k' (hk' ▸ hgrid.checked_le)
      omega
    · have hlast := hgrid.last fun ⟨k', hlow, hhigh⟩ => hin ((hleast k' hlow).trans hhigh)
      omega
  · rintro rfl
    refine ⟨by omega, by omega, fun k' hlow hhigh => ?_, ?_, fun hnone => ?_⟩
    · exact (min_le_right _ _).trans (hleast k' hlow)
    · rintro ⟨k', hlow, hhigh⟩
      exact ⟨k, by rw [min_eq_right ((hleast k' hlow).trans hhigh), hk]⟩
    · by_contra hne
      exact hnone ⟨k, by omega, by omega⟩

/-- The alignment can count the step and the start: whole seconds, from 1970 on. -/
def Tools.Counts (t : Tools) (a : RangeAsk) : Prop :=
  t.lib.wholeSeconds (t.stepOf a) * second = t.stepOf a ∧ unixEpoch ≤ a.checked ∧
    a.checked - unixEpoch ≤ maxDuration

/-- What a range must be for the alignment to find the grid of its step. Where the alignment can
count, it must not cut a part of a second off the start. Elsewhere the multiple of the whole seconds
must be the first multiple of the step by itself, or past the end as that is. -/
structure Tools.Alignable (t : Tools) (a : RangeAsk) : Prop where
  seconds_pos : 0 < t.lib.wholeSeconds (t.stepOf a)
  not_cut : t.Counts a → a.checked % second = 0 ∨
    (a.checked - unixEpoch) / second % t.lib.wholeSeconds (t.stepOf a) ≠ 0
  lands : ¬t.Counts a → min a.finish (alignedStart (t.lib.wholeSeconds (t.stepOf a)) a.checked) =
    min a.finish (firstMultiple (t.stepOf a) a.checked)

section Accepted

variable {t : Tools} {p : Principal} {clock : Clock} {arg : FanoutQueryIn} {a : RangeAsk}
  {limits : fleet.Limits}

/-- With arguments that are accepted, only the alignment can fail. -/
theorem fanoutRange_eq_ok (hne : a.targets ≠ [])
    (hwindow : t.resolveRange p arg.start arg.finish clock.now (t.fanoutEcho arg) =
      .ok (a.checked, a.finish)) (hstep : t.durationArg "step" arg.step "" = .ok a.userStep)
    (hlimits : Tools.limitsOf p = .ok limits)
    (hpoints : a.maxPoints = Tools.lowered defaultMaxPoints limits.maxPoints) {step start : Int} :
    (∃ plan, t.fanoutRange p clock arg a.targets = .ok plan ∧ plan.step = step ∧
        plan.start = start) ↔ step = t.stepOf a ∧ 0 < t.lib.wholeSeconds (t.stepOf a) ∧
      start = min a.finish (alignedStart (t.lib.wholeSeconds (t.stepOf a)) a.checked) := by
  have hcommon : (t.commonStep a.targets a.checked a.finish a.userStep
      (Tools.lowered defaultMaxPoints limits.maxPoints)).1 = t.stepOf a :=
    hpoints ▸ Tools.commonStep_eq hne
  have hnonneg := t.lib.wholeSeconds_nonneg _ (Tools.stepOf_mem (t := t) a).1
  have hmin : ∀ u, (if a.finish < u then a.finish else u) = min a.finish u := fun u => by omega
  constructor
  · rintro ⟨plan, h, rfl, rfl⟩
    obtain ⟨_, hwindow', h⟩ := bind_eq_ok.mp h
    obtain rfl := Except.ok.inj (hwindow.symm.trans hwindow')
    obtain ⟨_, hstep', h⟩ := bind_eq_ok.mp h
    obtain rfl := Except.ok.inj (hstep.symm.trans hstep')
    obtain ⟨_, hlimits', h⟩ := bind_eq_ok.mp h
    obtain rfl := Except.ok.inj (hlimits.symm.trans hlimits')
    obtain ⟨u, hu, h⟩ := bind_eq_ok.mp h
    cases h
    have hu := (congrArg (alignUp t.lib a.checked) hcommon).symm.trans hu
    rw [alignUp_eq hnonneg] at hu
    split at hu <;> cases hu
    exact ⟨hcommon, by omega, hmin _⟩
  · rintro ⟨rfl, hsec, rfl⟩
    have hu := (alignUp_eq (s := a.checked) hnonneg).trans (if_neg hsec.ne')
    exact ⟨_, bind_eq_ok.mpr ⟨_, hwindow, bind_eq_ok.mpr ⟨_, hstep, bind_eq_ok.mpr ⟨_, hlimits,
      bind_eq_ok.mpr ⟨_, hcommon.symm ▸ hu, rfl⟩⟩⟩⟩, hcommon, hmin _⟩

end Accepted

/-- The range of the last hour, for one cluster. -/
def lastHour : RangeAsk :=
  ⟨smallTools.fleet.visible onlyEast, 0, 120, noon - hour, noon⟩

end prom_fleet.mcptools
