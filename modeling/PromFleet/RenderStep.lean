-- The durations and the steps of the renderer: how a text becomes a duration, and how the
-- step of a range query follows from its window, its point budget and the scrape interval.
import PromFleet.GoTime
import Mathlib.Algebra.Group.Nat.Defs
import Mathlib.Data.List.DropRight
import Mathlib.Data.List.Infix

namespace prom_fleet.render

open gotime List

/-! ## Go's library -/

/-- What the callers read off a number that `strconv.ParseFloat` gives. -/
structure Float64 where
  /-- It is neither an infinity nor a NaN. -/
  finite : Bool
  /-- `int64(f)`. -/
  seconds : Int
  /-- `int64((f - float64(int64(f))) * 1e9)`. -/
  nanos : Int
  /-- `time.Duration(f * float64(time.Second))`. -/
  duration : Int
  duration_mem : minDuration ≤ duration ∧ duration ≤ maxDuration

/-- The layouts of `time.Parse` that are in use. -/
inductive Layout where
  | rfc3339Nano
  | rfc3339
  deriving DecidableEq

/-- The functions of the library on numbers and times. -/
structure GoLib where
  parseFloat : String → Option Float64
  timeParse : Layout → String → Option Int
  /-- `int64(d.Seconds())`. -/
  wholeSeconds : Int → Int
  wholeSeconds_nonneg : ∀ d, 0 ≤ d → 0 ≤ wholeSeconds d
  /-- The float may round a part of a second up. -/
  wholeSeconds_le : ∀ d, 0 ≤ d → wholeSeconds d ≤ (d + second - 1) / second

/-- `unicode.IsSpace`. -/
def isSpace (c : Char) : Bool :=
  let n := c.toNat
  (9 ≤ n && n ≤ 13) || n = 32 || n = 0x85 || n = 0xa0 || n = 0x1680 ||
    (0x2000 ≤ n && n ≤ 0x200a) || n = 0x2028 || n = 0x2029 || n = 0x202f || n = 0x205f ||
    n = 0x3000

/-- `strings.TrimSpace`. -/
def trimSpace (s : String) : String :=
  String.ofList ((s.toList.dropWhile isSpace).rdropWhile isSpace)

/-- `strings.TrimSuffix`. -/
def trimSuffix (s suffix : String) : String :=
  if suffix.toList <:+ s.toList then
    String.ofList (s.toList.take (s.toList.length - suffix.toList.length))
  else s

/-! ## Durations -/

def minute : Int := 60 * second
def hour : Int := 60 * minute
def day : Int := 24 * hour

/-- `strconv.Atoi` of a run of digits. -/
def atoi (digits : List Char) : Option Int :=
  let n : Int := digits.foldl (fun n c => 10 * n + (c.toNat - 48 : Int)) 0
  if n ≤ maxDuration then some n else none

/-- The units, in the order in which they are tried: `ms` comes before `m`. -/
def durationUnits : List (List Char × Int) :=
  [(['m', 's'], 1000000), (['s'], second), (['m'], minute), (['h'], hour), (['d'], day),
    (['w'], 7 * day), (['y'], 365 * day)]

/-- One round of the loop of `ParsePromDuration`: a number and its unit. -/
def durationTerm (rest : List Char) : Option (Int × List Char) :=
  let digits := rest.takeWhile Char.isDigit
  let tail := rest.dropWhile Char.isDigit
  if digits = [] then none
  else
    match atoi digits, durationUnits.find? fun u => u.1.isPrefixOf tail with
    | some n, some u => some (wrap64 (n * u.2), tail.drop u.1.length)
    | _, _ => none

/-- The loop of `ParsePromDuration`. Each round takes a digit at least, so the length of
the text bounds the number of rounds. -/
def durationTerms : Nat → List Char → Int → Option Int
  | _, [], total => some total
  | 0, _ :: _, _ => none
  | rounds + 1, rest, total =>
    match durationTerm rest with
    | some (d, rest) => durationTerms rounds rest (wrap64 (total + d))
    | none => none

def parsePromDuration (L : GoLib) (s : String) : Option Int :=
  let s := trimSpace s
  if s = "" then none
  else
    match L.parseFloat s with
    | some f => if f.finite then some f.duration else none
    | none => durationTerms s.toList.length s.toList 0

/-- The loop of `fmtFrac`: the last `prec` digits, without the zeroes at the end. -/
def fracDigits : Nat → Nat → List Char → List Char
  | 0, _, w => w
  | prec + 1, v, w =>
    fracDigits prec (v / 10) (if w = [] ∧ v % 10 = 0 then [] else Nat.digitChar (v % 10) :: w)

/-- A number with a point before its last `prec` digits. -/
def decimalText (prec v : Nat) : List Char :=
  let w := fracDigits prec v []
  Nat.toDigits 10 (v / 10 ^ prec) ++ if w = [] then [] else '.' :: w

/-- The units of `time.Duration.String`. -/
inductive PrintUnit where
  | ns
  | us
  | ms
  | s
  | m
  | h
  deriving DecidableEq

def PrintUnit.text : PrintUnit → List Char
  | ns => ['n', 's']
  | us => ['µ', 's']
  | ms => ['m', 's']
  | s => ['s']
  | m => ['m']
  | h => ['h']

def PrintUnit.prec : PrintUnit → Nat
  | us => 3
  | ms => 6
  | s => 9
  | _ => 0

/-- The numbers that are printed, down to the nanosecond where the unit has decimals. -/
def printed (u : Nat) : List (Nat × PrintUnit) :=
  if u = 0 then [(0, .s)]
  else if u < 1000 then [(u, .ns)]
  else if u < 1000000 then [(u, .us)]
  else if u < 1000000000 then [(u, .ms)]
  else
    let m := u / 60000000000
    (if m < 60 then [] else [(m / 60, .h)]) ++ (if m = 0 then [] else [(m % 60, .m)]) ++
      [(u % 60000000000, .s)]

def printedText (l : List (Nat × PrintUnit)) : List Char :=
  l.flatMap fun x => decimalText x.2.prec x.1 ++ x.2.text

/-- `time.Duration.String`. -/
def durationString (d : Int) : String :=
  String.ofList ((if d < 0 then ['-'] else []) ++ printedText (printed d.natAbs))

def formatDuration (d : Int) : String :=
  if d ≤ 0 then "0s"
  else
    match [(day, "d"), (hour, "h"), (minute, "m"), (second, "s"), (1000000, "ms")].find?
        fun u => decide (u.1 ≤ d ∧ d % u.1 = 0) with
    | some u => toString (d / u.1) ++ u.2
    | none => trimSuffix (durationString d) "0s"

variable {d : Int} {rest : List Char}

/-- A round takes a number and a unit off the text. -/
theorem durationTerm_ok {tail : List Char} (h : durationTerm rest = some (d, tail)) :
    ∃ digits, ∃ u ∈ durationUnits, rest = digits ++ (u.1 ++ tail) ∧ digits ≠ [] ∧
      ∀ c ∈ digits, c.isDigit = true := by
  unfold durationTerm at h
  dsimp only at h
  split at h
  · cases h
  rename_i hdigits
  split at h
  · rename_i n u hn hu
    obtain ⟨-, rfl⟩ := Prod.mk.inj (Option.some.inj h)
    refine ⟨_, u, mem_of_find?_eq_some hu, ?_, hdigits, fun c hc => mem_takeWhile_imp hc⟩
    have hunit := find?_some hu
    rw [ isPrefixOf_iff_prefix, prefix_iff_eq_append] at hunit
    rw [hunit, takeWhile_append_dropWhile]
  · cases h

variable {rounds : Nat}

/-- The loop never runs out of rounds: any number from the length of the text on gives the
same result. -/
theorem durationTerms_enough {more : Nat} (total : Int) (h : rest.length ≤ rounds)
    (hmore : rest.length ≤ more) :
    durationTerms rounds rest total = durationTerms more rest total := by
  induction rounds generalizing more rest total with
  | zero =>
    obtain rfl := length_eq_zero_iff.mp (Nat.le_zero.mp h)
    cases more <;> rfl
  | succ rounds ih =>
    cases rest with
    | nil => cases more <;> rfl
    | cons c rest =>
      obtain ⟨more, rfl⟩ : ∃ m, more = m + 1 := ⟨more - 1, by simp at hmore; omega⟩
      unfold durationTerms
      cases hterm : durationTerm (c :: rest) with
      | none => rfl
      | some x =>
        obtain ⟨d, tail⟩ := x
        obtain ⟨digits, u, -, hrest, hne, -⟩ := durationTerm_ok hterm
        have hlen := congrArg length hrest
        have hpos := length_pos_of_ne_nil hne
        simp only [length_append] at hlen
        exact ih _ (by omega) (by omega)

theorem durationTerms_mem {total : Int} (h : durationTerms rounds rest total = some d)
    (htotal : minDuration ≤ total ∧ total ≤ maxDuration) : minDuration ≤ d ∧ d ≤ maxDuration := by
  induction rounds generalizing rest total with
  | zero =>
    cases rest with
    | nil => exact Option.some.inj h ▸ htotal
    | cons c rest => cases h
  | succ rounds ih =>
    cases rest with
    | nil => exact Option.some.inj h ▸ htotal
    | cons c rest =>
      unfold durationTerms at h
      split at h
      · exact ih h (wrap64_mem _)
      · cases h

theorem parsePromDuration_mem {L : GoLib} {s : String} (h : parsePromDuration L s = some d) :
    minDuration ≤ d ∧ d ≤ maxDuration := by
  unfold parsePromDuration at h
  dsimp only at h
  split at h
  · cases h
  split at h
  · rename_i f _
    split at h
    · exact Option.some.inj h ▸ f.duration_mem
    · cases h
  · exact durationTerms_mem h (by decide)

/-! ## Steps -/

def stepLadder : List Int :=
  [15 * second, 30 * second, minute, 5 * minute, 15 * minute, hour, 6 * hour, day]

def defaultMaxPoints : Int := 120

structure Downsampled where
  requestedStep : String
  appliedStep : String
  reason : String
  deriving DecidableEq

inductive StepReason where
  | requested
  | maxPoints
  | scrapeInterval
  | ladder
  deriving DecidableEq

def StepReason.text : StepReason → String
  | .requested => "requested_step_honoured"
  | .maxPoints => "max_points"
  | .scrapeInterval => "scrape_interval_floor"
  | .ladder => "snapped_to_ladder"

/-- `StepRequest`. The end of the window is `finish`. -/
structure StepRequest where
  start : Int
  finish : Int
  userStep : Int
  scrapeInterval : Int
  maxPoints : Int

def snapUp (d : Int) : Int :=
  match stepLadder.find? fun rung => decide (d ≤ rung) with
  | some rung => rung
  | none => wrap64 ((wrap64 (d + day - 1)).tdiv day * day)

/-- The variables `step` and `reason` of `SelectStep`. -/
structure Choice where
  step : Int
  reason : StepReason

def neededStep (span maxPoints : Int) : Int := wrap64 (span.tdiv maxPoints + 1)

variable (c : Choice)

def Choice.budget (span maxPoints : Int) : Choice :=
  if 0 < span ∧ c.step < neededStep span maxPoints then
    ⟨neededStep span maxPoints, .maxPoints⟩
  else c

/-- The step of a request that needs none. -/
def Choice.orFirstRung : Choice :=
  if c.step ≤ 0 then ⟨15 * second, .maxPoints⟩ else c

def Choice.snap : Choice :=
  if snapUp c.step ≠ c.step then
    ⟨snapUp c.step, if c.reason = .requested then .ladder else c.reason⟩
  else c

def Choice.floorAt (scrapeInterval : Int) : Choice :=
  if 0 < scrapeInterval ∧ c.step < scrapeInterval then ⟨scrapeInterval, .scrapeInterval⟩ else c

def StepRequest.points (r : StepRequest) : Int :=
  if r.maxPoints ≤ 0 then defaultMaxPoints else r.maxPoints

def StepRequest.span (r : StepRequest) : Int := max (timeSub r.finish r.start) 0

def selectStep (r : StepRequest) : Int × Downsampled :=
  let requested := if 0 < r.userStep then formatDuration r.userStep else "auto"
  let first : Choice := ⟨r.userStep, if r.userStep ≤ 0 then .maxPoints else .requested⟩
  let last := (((first.budget r.span r.points).orFirstRung).snap).floorAt r.scrapeInterval
  (last.step, ⟨requested, formatDuration last.step, last.reason.text⟩)

/-! ## What the rounding does -/

section Rounding

variable {d : Int}

/-- The largest step that can be rounded up to a whole day in 64 bits. -/
def maxRounded : Int := maxDuration + 1 - day

theorem rung_mem : ∀ rung ∈ stepLadder,
    rung ≤ maxDuration ∧ rung ≤ maxRounded ∧ rung % 1000000 = 0 := by
  decide

theorem snapUp_le (d : Int) : snapUp d ≤ maxDuration := by
  unfold snapUp
  split
  · rename_i rung hfind
    exact (rung_mem rung (mem_of_find?_eq_some hfind)).1
  · exact (wrap64_mem _).2

/-- The rounding up to whole days, as long as a day more is still a 64-bit number. -/
theorem roundUp_eq (hpos : 0 < d) (hd : d ≤ maxRounded) :
    wrap64 ((wrap64 (d + day - 1)).tdiv day * day) = (d + day - 1) / day * day := by
  have hday : day = 86400000000000 := rfl
  have hmax : maxRounded = 9223285636854775808 := rfl
  have hin : wrap64 (d + day - 1) = d + day - 1 := by
    unfold wrap64
    omega
  rw [hin, Int.tdiv_eq_ediv_of_nonneg (by omega), hday]
  unfold wrap64
  omega

/-- The snap goes up, to a whole number of milliseconds. -/
theorem snapUp_up (hpos : 0 < d) (hd : d ≤ maxRounded) : d ≤ snapUp d ∧ snapUp d % 1000000 = 0 := by
  unfold snapUp
  split
  · rename_i rung hfind
    exact ⟨by simpa using find?_some hfind, (rung_mem rung (mem_of_find?_eq_some hfind)).2.2⟩
  · have hday : day = 86400000000000 := rfl
    rw [roundUp_eq hpos hd, hday]
    omega

/-- Beyond that, the sum wraps around and so does the step. -/
theorem snapUp_neg (hd : maxRounded < d) (hmax : d ≤ maxDuration) : snapUp d < 0 := by
  have hladder : stepLadder.find? (fun rung => decide (d ≤ rung)) = none := by
    refine find?_eq_none.mpr fun rung hrung => ?_
    have := (rung_mem rung hrung).2.1
    simp only [decide_eq_true_eq]
    omega
  unfold snapUp
  rw [hladder]
  have hday : day = 86400000000000 := rfl
  have hbound : maxRounded = 9223285636854775808 := rfl
  unfold maxDuration at hmax
  have hin : wrap64 (d + day - 1) = -(18446744073709551616 - (d + day - 1)) := by
    unfold wrap64
    omega
  dsimp only
  rw [hin, Int.neg_tdiv, Int.tdiv_eq_ediv_of_nonneg (by omega), hday]
  rw [wrap64_of_mem (by unfold minDuration; omega) (by unfold maxDuration; omega)]
  omega

end Rounding

/-! ## What the step is -/

section Steps

variable {r : StepRequest}

theorem points_pos (r : StepRequest) : 0 < r.points := by
  unfold StepRequest.points defaultMaxPoints
  split <;> omega

/-- What is rounded up: the step of the caller, or the step that the budget needs. -/
def StepRequest.unsnapped (r : StepRequest) : Int :=
  let needed := neededStep r.span r.points
  let step := if 0 < r.span ∧ r.userStep < needed then needed else r.userStep
  if step ≤ 0 then 15 * second else step

theorem unsnapped_mem (huser : r.userStep ≤ maxDuration) :
    0 < r.unsnapped ∧ r.unsnapped ≤ maxDuration := by
  have hneeded : neededStep r.span r.points ≤ maxDuration := (wrap64_mem _).2
  have hrung : 15 * second ≤ maxDuration := by decide
  unfold StepRequest.unsnapped second at *
  dsimp only
  split_ifs <;> omega

theorem unsnapped_eq (hspan : 0 < r.span) (hneed : r.span.tdiv r.points + 1 ≤ maxDuration) :
    r.unsnapped = max r.userStep (r.span.tdiv r.points + 1) := by
  have hnonneg : 0 ≤ r.span.tdiv r.points := Int.tdiv_nonneg hspan.le (points_pos r).le
  have hneeded : neededStep r.span r.points = r.span.tdiv r.points + 1 :=
    wrap64_of_mem (by unfold minDuration; omega) hneed
  unfold StepRequest.unsnapped
  rw [hneeded]
  dsimp only
  split_ifs <;> omega

/-- The scrape interval lifts the rounded step, if it is wider. -/
theorem selectStep_step : (selectStep r).1 =
      if 0 < r.scrapeInterval ∧ snapUp r.unsnapped < r.scrapeInterval then r.scrapeInterval
      else snapUp r.unsnapped := by
  have hsnap : ∀ c : Choice, c.snap.step = snapUp c.step := by
    intro c
    unfold Choice.snap
    split
    · rfl
    · rename_i h
      exact (not_not.mp h).symm
  have hfirst : ∀ reason, ((⟨r.userStep, reason⟩ : Choice).budget r.span r.points).orFirstRung.step
      = r.unsnapped := by
    intro reason
    unfold StepRequest.unsnapped Choice.orFirstRung Choice.budget
    dsimp only
    by_cases hneed : 0 < r.span ∧ r.userStep < neededStep r.span r.points
    · rw [if_pos hneed, if_pos hneed]
      split <;> rfl
    · rw [if_neg hneed, if_neg hneed]
      split <;> rfl
  unfold selectStep
  dsimp only
  unfold Choice.floorAt
  rw [hsnap, hfirst]
  split <;> simp only [hsnap, hfirst]

/-- A window has no more points than the budget if and only if it is shorter than that many
steps. -/
theorem points_le_iff {span step maxPoints : Int} (hspan : 0 ≤ span) (hstep : 0 < step) :
    span.tdiv step + 1 ≤ maxPoints ↔ span < maxPoints * step := by
  rw [Int.tdiv_eq_ediv_of_nonneg hspan, Int.add_one_le_iff, Int.ediv_lt_iff_lt_mul hstep]

end Steps

end prom_fleet.render
