-- The encoders of a query result: the rows of an instant and the series of a range. The
-- samples are ranked and cut before they are encoded.
import PromFleet.Registry
import PromFleet.SanitizeLaws
import PromFleet.Truncate

namespace prom_fleet.render

open fleet gotime map_range List

/-! ## Samples -/

variable (F : Type)

structure Point where
  t : F
  v : F

structure VectorSample where
  metric : StrMap String
  value : Point F

structure SeriesStream where
  metric : StrMap String
  values : List (Point F)

/-- The value of a row: a number, absent if it is not finite, or a text. -/
inductive Cell where
  | number (v : Option F)
  | text (s : String)

/-- A row under `InstantColumns`. -/
structure InstantRow where
  name : String
  labels : StrMap String
  value : Cell F

/-- `RangeSeries`. An absent value is a gap. -/
structure RangeSeries where
  labels : StrMap String
  values : List (Option F)
  max : Option F

/-- What the encoders do with floats, with maps and with the size of a value. -/
structure Encoder where
  /-- `a == b`, which fails for two NaNs. -/
  same : F → F → Bool
  /-- `cmp.Compare`. -/
  compare : F → F → Ordering
  finite : F → Bool
  round : F → F
  /-- The place of an instant on the grid of a start and a step, rounded. -/
  index : Int → Int → F → Int
  order : Range String String
  /-- `EstimateTokens` of rows and of series. -/
  rowTokens : List (InstantRow F) → Int
  seriesTokens : List (RangeSeries F) → Int

/-- `Options`, without the format and the points, which no encoder reads. -/
structure Options where
  maxSeries : Int
  maxItems : Int
  tokenCeiling : Int

def defaultMaxSeries : Int := 20

def Options.withDefaults (o : Options) : Options where
  maxSeries := if o.maxSeries ≤ 0 then defaultMaxSeries else o.maxSeries
  maxItems := if o.maxItems ≤ 0 then 100 else o.maxItems
  tokenCeiling := if o.tokenCeiling = 0 then 25000 else o.tokenCeiling

/-- `InstantInput`, without the time of the evaluation. -/
structure InstantInput where
  vector : List (VectorSample F)
  scalar : Option (Point F)
  stringValue : String
  resultType : String
  warnings : List String

/-- `InstantResult`, without the time of the evaluation. -/
structure InstantResult where
  resultType : String
  rows : List (InstantRow F)
  sharedLabels : StrMap String
  total : Nat
  truncated : Option Truncation
  warnings : List String

structure RangeInput where
  matrix : List (SeriesStream F)
  start : Int
  finish : Int
  step : Int
  downsampled : Downsampled
  warnings : List String
  seriesTotalHint : Int

/-- `RangeResult`, without the start and the step that it repeats. -/
structure RangeResult where
  points : Int
  sharedLabels : StrMap String
  series : List (RangeSeries F)
  seriesTotal : Nat
  truncated : Option Truncation
  downsampled : Downsampled
  warnings : List String

/-- `rankedSeries`. The maximum is absent if no value is finite. -/
structure RankedSeries where
  stream : SeriesStream F
  max : Option F
  key : String

def labelKey (m : StrMap String) : String :=
  String.join ((sortedKeys m).map fun k => k ++ "=" ++ labelOf m k ++ ",")

/-- `sanitizeAll`: the bound is `MaxAnnotationRunes`. -/
def sanitizeAll (texts : List String) : List String :=
  (texts.map fun s => clipRunes s 500).filter fun s => decide (s ≠ "")

namespace Encoder

variable {F : Type} (E : Encoder F)

def jsonNumber (v : F) : Option F := if E.finite v then some v else none

/-- Whether the order of two values, then of two keys, keeps the first one first. The larger
value is the first. -/
def ranksBefore (v w : F) (key other : String) : Bool :=
  if E.same v w then decide (key ≤ other) else E.compare w v != .gt

/-- The labels of `shared` that another label set has too. -/
def commonLabels (shared other : StrMap String) : StrMap String :=
  collect (fun k v => if labelOf other k = v then some v else none) (E.order.list shared)

/-! ## Instants -/

/-- The order of `EncodeInstant`. -/
def sampleBefore (a b : VectorSample F) : Bool :=
  E.ranksBefore a.value.v b.value.v (labelKey a.metric) (labelKey b.metric)

def rankSamples (samples : List (VectorSample F)) : List (VectorSample F) :=
  samples.insertionSort fun a b => E.sampleBefore a b = true

def namelessLabels (s : VectorSample F) : StrMap String :=
  (labels E.order s.metric).erase "__name__"

/-- `sharedVectorLabels`. No shared label is the empty map here. -/
def sharedVectorLabels : List (VectorSample F) → StrMap String
  | first :: second :: rest =>
    (second :: rest).foldl (fun shared s => E.commonLabels shared (labels E.order s.metric))
      (E.namelessLabels first)
  | _ => ∅

/-- A row of `vectorRows`. -/
def vectorRow (shared : StrMap String) (s : VectorSample F) : InstantRow F where
  name := labelOf (labels E.order s.metric) "__name__"
  labels := E.namelessLabels s \ shared
  value := .number (E.jsonNumber (E.round s.value.v))

def vectorRows (samples : List (VectorSample F)) (shared : StrMap String) : List (InstantRow F) :=
  samples.map (E.vectorRow shared)

/-- `EncodeInstant` of a vector. -/
def encodeVector (res : InstantResult F) (vector : List (VectorSample F)) (opts : Options) :
    InstantResult F :=
  let samples := E.rankSamples vector
  let (kept, trunc) := truncateItems samples opts.maxItems
    (toString samples.length ++ " samples matched. Add label matchers or aggregate with " ++
      "sum by(...) to narrow the result; raising limit past " ++ toString opts.maxItems ++
      " will hit the hub token ceiling.")
  let trunc := trunc.map fun tr => { tr with selection := selectionTopNByMax kept.length }
  let (fitted, hit) := fitTokens (fun sel => E.rowTokens (E.vectorRows sel ∅))
    opts.tokenCeiling kept
  let shared := E.sharedVectorLabels fitted
  { res with
    rows := E.vectorRows fitted shared
    sharedLabels := shared
    total := samples.length
    truncated :=
      if hit then
        some { escalate trunc fitted.length .tokenCeiling
            ("The hub caps a result at about " ++ toString opts.tokenCeiling ++
              " estimated tokens regardless of the requested limit. " ++
              "Narrow the query or aggregate.") with
          total := samples.length
          selection := selectionTopNByMax fitted.length }
      else trunc }

/-- `EncodeInstant`. The text of a string is cut at `MaxLabelValueBytes`. -/
def encodeInstant (input : InstantInput F) (opts : Options) : InstantResult F :=
  let opts := opts.withDefaults
  let res : InstantResult F :=
    { resultType := String.ofList (sanitize input.resultType.toList)
      rows := []
      sharedLabels := ∅
      total := 0
      truncated := none
      warnings := sanitizeAll input.warnings }
  match input.scalar with
  | some pt =>
    { res with total := 1, rows := [⟨"", ∅, .number (E.jsonNumber (E.round pt.v))⟩] }
  | none =>
    if input.resultType = "string" then
      { res with total := 1, rows := [⟨"", ∅, .text (clipBytes input.stringValue 256)⟩] }
    else E.encodeVector res input.vector opts

/-! ## Ranges -/

/-- The loop of `rankByMax` over the values of a series: the largest finite one. -/
def largest (values : List (Point F)) : Option F :=
  values.foldl (fun best p =>
    if E.finite p.v then
      match best with
      | none => some p.v
      | some m => if E.compare p.v m = .gt then some p.v else some m
    else best) none

/-- The order of `rankByMax`. -/
def seriesBefore (a b : RankedSeries F) : Bool :=
  match a.max, b.max with
  | some _, none => true
  | none, some _ => false
  | some v, some w => E.ranksBefore v w a.key b.key
  | none, none => decide (a.key ≤ b.key)

def rankedSeries (s : SeriesStream F) : RankedSeries F :=
  ⟨s, E.largest s.values, labelKey s.metric⟩

def rankByMax (m : List (SeriesStream F)) : List (RankedSeries F) :=
  (m.map E.rankedSeries).insertionSort fun a b => E.seriesBefore a b = true

/-- A series of `buildSeries`: its values on the grid. -/
def gridSeries (start step points : Int) (r : RankedSeries F) : RangeSeries F where
  labels := labels E.order r.stream.metric
  values := r.stream.values.foldl (fun values p =>
      let idx := E.index start step p.t
      if step ≤ 0 ∨ points = 0 ∨ idx < 0 ∨ points ≤ idx then values
      else values.set idx.toNat (E.jsonNumber (E.round p.v)))
    (List.replicate points.toNat none)
  max := r.max.bind fun m => E.jsonNumber (E.round m)

def buildSeries (ranked : List (RankedSeries F)) (start step points : Int) : List (RangeSeries F) :=
  ranked.map (E.gridSeries start step points)

/-- The labels that all the series have. No shared label is the empty map here. -/
def sharedLabels : List (RangeSeries F) → StrMap String
  | [] => ∅
  | first :: rest => rest.foldl (fun shared s => E.commonLabels shared s.labels) first.labels

def withoutShared (shared : StrMap String) (s : RangeSeries F) : RangeSeries F :=
  { s with labels := s.labels \ shared }

def factorShared (series : List (RangeSeries F)) : StrMap String × List (RangeSeries F) :=
  let shared := E.sharedLabels series
  (shared, series.map (withoutShared shared))

def pointsOf (start finish step : Int) : Int :=
  if 0 ≤ timeSub finish start ∧ 0 < step then (timeSub finish start).tdiv step + 1 else 0

/-- The cut of `EncodeRange` at the bound on the series. -/
def topSeries (ranked : List (RankedSeries F)) (maxSeries : Int) (total : Nat) :
    List (RankedSeries F) × Option Truncation :=
  if maxSeries < ranked.length then
    (ranked.take maxSeries.toNat,
      some ⟨maxSeries.toNat, total, .maxSeries,
        toString total ++ " series matched. Narrow the query with label matchers, or " ++
          "aggregate with sum by(...), rather than raising maxSeries: top-N by maximum " ++
          "drops a series that flatlined when it should have spiked.",
        selectionTopNByMax maxSeries⟩)
  else (ranked, none)

def encodeRange (input : RangeInput F) (opts : Options) : RangeResult F :=
  let opts := opts.withDefaults
  let points := pointsOf input.start input.finish input.step
  let total := (max input.seriesTotalHint input.matrix.length).toNat
  let res : RangeResult F :=
    { points := points
      sharedLabels := ∅
      series := []
      seriesTotal := total
      truncated := none
      downsampled := input.downsampled
      warnings := sanitizeAll input.warnings }
  if input.matrix = [] then res
  else
    let (kept, trunc) := topSeries (E.rankByMax input.matrix) opts.maxSeries total
    let build (sel : List (RankedSeries F)) := E.buildSeries sel input.start input.step points
    let (fitted, hit) := fitTokens (fun sel => E.seriesTokens (build sel)) opts.tokenCeiling kept
    let (shared, series) := E.factorShared (build fitted)
    { res with
      sharedLabels := shared
      series := series
      truncated :=
        if hit then
          let cut := escalate trunc fitted.length .tokenCeiling
            ("The hub caps a result at about " ++ toString opts.tokenCeiling ++
              " estimated tokens regardless of the requested limit. " ++
              "Narrow the query, shorten the range, or aggregate.")
          some { cut with
            total := total
            selection := if cut.selection = "" then selectionTopNByMax fitted.length
              else cut.selection }
        else trunc }

/-! ## What an encoder keeps -/

variable {E} {opts : Options}

theorem maxItems_withDefaults_pos (opts : Options) : 0 < opts.withDefaults.maxItems := by
  unfold Options.withDefaults
  dsimp only
  split <;> omega

theorem maxSeries_withDefaults_pos (opts : Options) : 0 < opts.withDefaults.maxSeries := by
  unfold Options.withDefaults defaultMaxSeries
  dsimp only
  split <;> omega

/-- The rows of a vector are those of the first samples of the ranking. -/
theorem encodeInstant_vector {input : InstantInput F} (hscalar : input.scalar = none)
    (htype : input.resultType ≠ "string") (opts : Options) :
    let res := E.encodeInstant input opts
    ∃ n : Nat, n ≤ opts.withDefaults.maxItems ∧ n ≤ input.vector.length ∧
      Reported res.truncated n input.vector.length input.vector.length ∧
      let fitted := (E.rankSamples input.vector).take n
      res.sharedLabels = E.sharedVectorLabels fitted ∧
        res.rows = E.vectorRows fitted (E.sharedVectorLabels fitted) := by
  have hpos := maxItems_withDefaults_pos opts
  have hlen : (E.rankSamples input.vector).length = input.vector.length :=
    length_insertionSort _ _
  unfold encodeInstant
  simp only [hscalar, htype, if_false, ← hlen]
  unfold encodeVector
  dsimp only
  generalize E.rankSamples input.vector = samples
  generalize hcut : truncateItems samples _ _ = cut
  have hkept : cut.1 = samples.take opts.withDefaults.maxItems.toNat :=
    hcut ▸ truncateItems_take hpos
  have hmax := length_take_le opts.withDefaults.maxItems.toNat samples
  have hbegins : cut.1 <+: samples := hcut ▸ truncateItems_begins _ _ _
  have hreport : Reported cut.2 cut.1.length samples.length samples.length :=
    hcut ▸ reported_truncateItems _ hpos _
  obtain ⟨⟨hle, htake⟩, hfit⟩ := fit_reported (fun sel => E.rowTokens (E.vectorRows sel ∅))
    opts.withDefaults.tokenCeiling hbegins (hreport.map
      (fun tr => { tr with selection := selectionTopNByMax cut.1.length }) fun t => ⟨rfl, rfl⟩)
  rw [← hkept] at hmax
  exact ⟨_, by omega, hle.trans hbegins.length_le, hfit _ (returned_escalate _ _ _ _) rfl,
    congrArg _ htake, congrArg (fun sel => E.vectorRows sel (E.sharedVectorLabels sel)) htake⟩

/-- The cut at the bound on the series leaves the first ones and reports it. -/
theorem topSeries_spec {maxSeries : Int} (h : 0 < maxSeries) (ranked : List (RankedSeries F))
    (total : Nat) :
    let out := topSeries ranked maxSeries total
    (out.1 <+: ranked ∧ out.1.length ≤ maxSeries) ∧
      Reported out.2 out.1.length ranked.length total := by
  unfold topSeries
  split
  · have hbegins := take_prefix maxSeries.toNat ranked
    have hlen := length_take_le maxSeries.toNat ranked
    refine ⟨⟨hbegins, by dsimp only; omega⟩, by simp; omega, ?_⟩
    rintro t ⟨⟩
    exact ⟨by simp; omega, rfl⟩
  · exact ⟨⟨prefix_rfl, by dsimp only; omega⟩, by simp [Reported]⟩

/-- The series of a range are those of the first ones of the ranking. -/
theorem encodeRange_series (E : Encoder F) (input : RangeInput F) (opts : Options) :
    let res := E.encodeRange input opts
    ∃ n : Nat, n ≤ opts.withDefaults.maxSeries ∧ n ≤ input.matrix.length ∧
      Reported res.truncated n input.matrix.length
        (max input.seriesTotalHint input.matrix.length).toNat ∧
      (res.sharedLabels, res.series) = E.factorShared (E.buildSeries
        ((E.rankByMax input.matrix).take n) input.start input.step res.points) := by
  have hpos := maxSeries_withDefaults_pos opts
  have hlen : (E.rankByMax input.matrix).length = input.matrix.length := by
    unfold rankByMax
    rw [length_insertionSort, length_map]
  unfold encodeRange
  dsimp only
  split
  · rename_i hnil
    exact ⟨0, hpos.le, Nat.zero_le _, by simp [Reported, hnil], rfl⟩
  · simp only [← hlen]
    generalize E.rankByMax input.matrix = ranked
    obtain ⟨⟨hbegins, hmax⟩, hreport⟩ :=
      topSeries_spec hpos ranked (max input.seriesTotalHint ranked.length).toNat
    obtain ⟨⟨hle, htake⟩, hfit⟩ := fit_reported (fun sel => E.seriesTokens (E.buildSeries sel
      input.start input.step (pointsOf input.start input.finish input.step)))
      opts.withDefaults.tokenCeiling hbegins hreport
    exact ⟨_, by omega, hle.trans hbegins.length_le, hfit _ (returned_escalate _ _ _ _) rfl,
      congrArg (fun sel => E.factorShared (E.buildSeries sel _ _ _)) htake⟩

end Encoder

end prom_fleet.render
