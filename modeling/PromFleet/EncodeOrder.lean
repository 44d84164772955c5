-- The order of the encoders: the samples and the series are sorted by a key, so an encoding
-- does not depend on the order in which the cluster lists them, as long as no two of them
-- have the same key, and what is returned of them is a beginning of the ranking.
import Mathlib.Data.Prod.Lex
import PromFleet.Encode

namespace prom_fleet.render

open fleet List

/-- The floats are ordered by a key. NaN has the lowest one, and is not equal to itself. -/
structure Encoder.Ordered {F V : Type} [LinearOrder V] (E : Encoder F) (key : F → WithBot V) :
    Prop where
  same : ∀ v w, E.same v w = true ↔ key v = key w ∧ key v ≠ ⊥
  compare : ∀ v w, E.compare v w = cmp (key v) (key w)
  finite : ∀ v, E.finite v = true → key v ≠ ⊥

section Sorted

variable {α κ : Type} [LinearOrder κ] {r : α → α → Prop} [DecidableRel r] (rank : α → κ)
  (hr : ∀ a b, r a b ↔ rank a ≤ rank b)

include hr

theorem pairwise_rank (l : List α) : (l.insertionSort r).Pairwise fun a b => rank a ≤ rank b := by
  have htotal : Std.Total r := ⟨fun a b => by simp only [hr]; exact le_total _ _⟩
  have htrans : IsTrans α r := ⟨fun a b c => by simp only [hr]; exact le_trans⟩
  simp only [← hr]
  exact pairwise_insertionSort r l

theorem eq_of_orderedInsert_comm {a b : α} (htie : rank a = rank b) {l : List α}
    (h : (l.orderedInsert r b).orderedInsert r a = (l.orderedInsert r a).orderedInsert r b) :
    a = b := by
  induction l with
  | nil =>
    have hab : r a b := by rw [hr, htie]
    simp only [orderedInsert_nil, orderedInsert_cons_of_le r _ hab] at h
    exact (cons.inj (h.trans (orderedInsert_cons_of_le r _ (by rw [hr, htie])))).1
  | cons x l ih =>
    have hab : r a b := by rw [hr, htie]
    have hba : r b a := by rw [hr, htie]
    by_cases hx : r a x
    · have hbx : r b x := by rwa [hr, ← htie, ← hr]
      simp only [orderedInsert_cons_of_le r l hx, orderedInsert_cons_of_le r l hbx,
        orderedInsert_cons_of_le r _ hab, orderedInsert_cons_of_le r _ hba] at h
      exact (cons.inj h).1
    · have hbx : ¬r b x := by rwa [hr, ← htie, ← hr]
      simp only [orderedInsert_of_not_le r _ hx, orderedInsert_of_not_le r _ hbx] at h
      exact ih (cons.inj h).2

/-- Every order of a list is sorted alike exactly if its ties are between equal elements. -/
theorem insertionSort_perm_iff {l : List α} :
    (∀ l' : List α, l'.Perm l → l'.insertionSort r = l.insertionSort r) ↔
      ∀ a ∈ l, ∀ b ∈ l, rank a = rank b → a = b := by
  constructor
  · intro h a ha b hb htie
    by_contra hne
    classical
    have hb := (mem_erase_of_ne (Ne.symm hne)).mpr hb
    have hl := (perm_cons_erase ha).trans ((perm_cons_erase hb).cons a)
    exact hne (eq_of_orderedInsert_comm rank hr htie
      ((h _ hl.symm).trans (h _ (hl.trans (.swap b a _)).symm).symm))
  · intro hinj l' h
    have hperm := (perm_insertionSort r l').trans (h.trans (perm_insertionSort r l).symm)
    refine hperm.eq_of_pairwise (fun a b ha hb hab hba => ?_) (pairwise_rank rank hr l')
      (pairwise_rank rank hr l)
    simp only [mem_insertionSort] at ha hb
    exact hinj a (h.mem_iff.mp ha) b hb (le_antisymm hab hba)

end Sorted

namespace Encoder

variable {F V : Type} [LinearOrder V] {E : Encoder F} {key : F → WithBot V}

/-- The place of a value and a label key in a ranking: the largest value first, and NaN last,
whose ties are not broken. -/
def rankOf (v : WithBot V) (name : String) : Lex ((WithBot V)ᵒᵈ × WithBot String) :=
  toLex (OrderDual.toDual v, if v = ⊥ then ⊥ else (name : WithBot String))

theorem Ordered.compare_eq_gt (hE : E.Ordered key) (v w : F) :
    E.compare v w = .gt ↔ key w < key v := by
  rw [hE.compare, cmp_eq_gt_iff]

theorem ranksBefore_iff (hE : E.Ordered key) (v w : F) (name other : String) :
    E.ranksBefore v w name other = true ↔ rankOf (key v) name ≤ rankOf (key w) other := by
  unfold ranksBefore rankOf
  rw [Prod.Lex.toLex_le_toLex]
  have hgt := hE.compare_eq_gt w v
  by_cases hsame : E.same v w = true
  · obtain ⟨heq, hne⟩ := (hE.same v w).mp hsame
    simp [hsame, heq ▸ hne, heq]
  · have hdiffer := mt (hE.same v w).mpr hsame
    by_cases heq : key v = key w
    · have hnan : key w = ⊥ := by
        by_contra hne
        exact hdiffer ⟨heq, heq ▸ hne⟩
      simp [hsame, heq, hnan, hgt]
    · simp [hsame, hgt, heq, (Ne.symm heq).le_iff_lt]

theorem finite_largest {values : List (Point F)} {v : F} (h : E.largest values = some v) :
    E.finite v = true := by
  unfold largest at h
  induction values using reverseRecOn generalizing v with
  | nil => cases h
  | append_singleton l p ih =>
    simp only [foldl_append, foldl_cons, foldl_nil] at h
    grind

/-- The largest finite value of a series, if it has one. -/
def topOf (E : Encoder F) (key : F → WithBot V) (values : List (Point F)) : WithBot V :=
  ((values.filter fun p => E.finite p.v).map fun p => key p.v).foldl max ⊥

theorem key_largest (hE : E.Ordered key) (values : List (Point F)) :
    (E.largest values).elim ⊥ key = topOf E key values := by
  unfold largest topOf
  induction values using reverseRecOn with
  | nil => rfl
  | append_singleton l p ih =>
    rw [filter_append, map_append, foldl_append, foldl_append, ← ih]
    generalize foldl _ none l = best
    by_cases hp : E.finite p.v = true
    · cases best with
      | none => simp [hp]
      | some m =>
        by_cases hgt : key m < key p.v
        · simp [hp, hE.compare_eq_gt, hgt, hgt.le]
        · simp [hp, hE.compare_eq_gt, hgt, not_lt.mp hgt]
    · simp [hp]

/-- The place of a series. Those without a finite value come last, and their ties are broken
too. -/
def seriesRank (E : Encoder F) (key : F → WithBot V) (s : SeriesStream F) :
    Lex ((WithBot V)ᵒᵈ × String) :=
  toLex (OrderDual.toDual (topOf E key s.values), labelKey s.metric)

theorem seriesBefore_iff (hE : E.Ordered key) (a b : SeriesStream F) :
    E.seriesBefore (E.rankedSeries a) (E.rankedSeries b) = true ↔
      seriesRank E key a ≤ seriesRank E key b := by
  unfold seriesBefore seriesRank rankedSeries
  rw [← key_largest hE, ← key_largest hE]
  cases ha : E.largest a.values with
  | none =>
    cases hb : E.largest b.values with
    | none => simp [Prod.Lex.toLex_le_toLex]
    | some w =>
      have hw := bot_lt_iff_ne_bot.mpr (hE.finite w (finite_largest hb))
      exact iff_of_false (by simp) (not_le.mpr (Prod.Lex.toLex_lt_toLex.mpr (.inl hw)))
  | some v =>
    have hv := hE.finite v (finite_largest ha)
    cases hb : E.largest b.values with
    | none =>
      exact iff_of_true rfl (Prod.Lex.toLex_le_toLex.mpr (.inl (bot_lt_iff_ne_bot.mpr hv)))
    | some w =>
      have hw := hE.finite w (finite_largest hb)
      simp only [ranksBefore_iff hE, rankOf, Prod.Lex.toLex_le_toLex]
      simp [hv, hw]

/-- The ranking sorts the series before it looks at their values. -/
theorem rankByMax_eq (m : List (SeriesStream F)) : E.rankByMax m = (m.insertionSort fun a b =>
    E.seriesBefore (E.rankedSeries a) (E.rankedSeries b) = true).map E.rankedSeries := by
  unfold rankByMax
  symm
  apply map_insertionSort
  exact fun _ _ _ _ => Iff.rfl

/-! ## The law -/

/-- The samples whose rows are returned. -/
def survivingSamples (E : Encoder F) (input : InstantInput F) (opts : Options) :
    List (VectorSample F) :=
  (E.rankSamples input.vector).take (E.encodeInstant input opts).rows.length

/-- The series that are returned. -/
def survivingSeries (E : Encoder F) (input : RangeInput F) (opts : Options) :
    List (RankedSeries F) :=
  (E.rankByMax input.matrix).take (E.encodeRange input opts).series.length

/-- Whether each order of the samples gives the same result, made of the same samples. -/
def InstantIgnoresOrder (E : Encoder F) (input : InstantInput F) : Prop :=
  ∀ opts vector, vector.Perm input.vector → let other := { input with vector := vector }
    E.encodeInstant other opts = E.encodeInstant input opts ∧
      E.survivingSamples other opts = E.survivingSamples input opts

def RangeIgnoresOrder (E : Encoder F) (input : RangeInput F) : Prop :=
  ∀ opts matrix, matrix.Perm input.matrix → let other := { input with matrix := matrix }
    E.encodeRange other opts = E.encodeRange input opts ∧
      E.survivingSeries other opts = E.survivingSeries input opts

/-- With a bound past the length of the vector, and no ceiling, every sample is returned. -/
theorem survivingSamples_all (input : InstantInput F) (hscalar : input.scalar = none)
    (htype : input.resultType ≠ "string") :
    E.survivingSamples input ⟨0, input.vector.length + 1, -1⟩ = E.rankSamples input.vector := by
  have hlen : (E.rankSamples input.vector).length = input.vector.length := length_insertionSort _ _
  have hpos : ¬(input.vector.length : Int) + 1 ≤ 0 := by omega
  refine take_of_length_le ?_
  simp [encodeInstant, hscalar, htype, encodeVector, Options.withDefaults, vectorRows,
    truncateItems, fitTokens, hlen, hpos]

theorem survivingSeries_all (input : RangeInput F) :
    E.survivingSeries input ⟨input.matrix.length + 1, 0, -1⟩ = E.rankByMax input.matrix := by
  have hlen : (E.rankByMax input.matrix).length = input.matrix.length := by
    rw [rankByMax, length_insertionSort, length_map]
  have hpos : ¬(input.matrix.length : Int) + 1 ≤ 0 := by omega
  have hroom : ¬(input.matrix.length : Int) + 1 < input.matrix.length := by omega
  refine take_of_length_le ?_
  by_cases hnil : input.matrix = []
  · rw [hlen, hnil]
    exact Nat.zero_le _
  simp [encodeRange, hnil, Options.withDefaults, topSeries, fitTokens, hlen, hpos, hroom,
    factorShared, buildSeries]

theorem rankSamples_perm_iff (hE : E.Ordered key) {l : List (VectorSample F)} :
    (∀ l', l'.Perm l → E.rankSamples l' = E.rankSamples l) ↔
      ∀ a ∈ l, ∀ b ∈ l, E.sampleBefore a b = true → E.sampleBefore b a = true → a = b := by
  refine (insertionSort_perm_iff
    (fun s : VectorSample F => rankOf (key s.value.v) (labelKey s.metric))
    (fun a b => ranksBefore_iff hE _ _ _ _)).trans ?_
  simp only [sampleBefore, ranksBefore_iff hE, le_antisymm_iff, and_imp]

theorem rankByMax_perm_iff (hE : E.Ordered key) {l : List (SeriesStream F)} :
    (∀ l', l'.Perm l → E.rankByMax l' = E.rankByMax l) ↔ ∀ a ∈ l, ∀ b ∈ l,
      E.seriesBefore (E.rankedSeries a) (E.rankedSeries b) = true →
      E.seriesBefore (E.rankedSeries b) (E.rankedSeries a) = true → a = b := by
  have hinj : Function.Injective E.rankedSeries := fun a b h => (RankedSeries.mk.inj h).1
  simp only [rankByMax_eq, hinj.list_map.eq_iff]
  refine (insertionSort_perm_iff (seriesRank E key) (seriesBefore_iff hE)).trans ?_
  simp only [seriesBefore_iff hE, le_antisymm_iff, and_imp]

/-- Every order of the samples of a vector, and of the series of a matrix, has one encoding
exactly if the comparison of the ranking puts no two different ones level. -/
theorem encodings_ignore_the_order_iff_no_two_are_level (hE : E.Ordered key) :
    (∀ input : InstantInput F, input.scalar = none → input.resultType ≠ "string" →
      (E.InstantIgnoresOrder input ↔ ∀ a ∈ input.vector, ∀ b ∈ input.vector,
        E.sampleBefore a b = true → E.sampleBefore b a = true → a = b)) ∧
    ∀ input : RangeInput F, E.RangeIgnoresOrder input ↔
      ∀ a ∈ input.matrix, ∀ b ∈ input.matrix,
        E.seriesBefore (E.rankedSeries a) (E.rankedSeries b) = true →
        E.seriesBefore (E.rankedSeries b) (E.rankedSeries a) = true → a = b := by
  refine ⟨fun input hscalar htype => ?_, fun input => ?_⟩
  · rw [← rankSamples_perm_iff hE]
    constructor
    · intro h vector hperm
      have hkept := (h ⟨0, input.vector.length + 1, -1⟩ vector hperm).2
      rw [survivingSamples_all input hscalar htype, ← hperm.length_eq] at hkept
      rw [← hkept, survivingSamples_all { input with vector := vector } hscalar htype]
    · intro h opts vector hperm
      have hrank := h vector hperm
      have hencode : E.encodeInstant { input with vector := vector } opts =
          E.encodeInstant input opts := by
        simp only [encodeInstant, encodeVector, hrank]
      exact ⟨hencode, by rw [survivingSamples, survivingSamples, hencode, hrank]⟩
  · rw [← rankByMax_perm_iff hE]
    constructor
    · intro h matrix hperm
      have hkept := (h ⟨input.matrix.length + 1, 0, -1⟩ matrix hperm).2
      rw [survivingSeries_all, ← hperm.length_eq] at hkept
      rw [← hkept, survivingSeries_all { input with matrix := matrix }]
    · intro h opts matrix hperm
      have hrank := h matrix hperm
      have hnil : matrix = [] ↔ input.matrix = [] := by
        rw [← length_eq_zero_iff, hperm.length_eq, length_eq_zero_iff]
      have hencode : E.encodeRange { input with matrix := matrix } opts =
          E.encodeRange input opts := by
        simp only [encodeRange, hrank, hperm.length_eq, hnil]
      exact ⟨hencode, by rw [survivingSeries, survivingSeries, hencode, hrank]⟩

/-- What is returned is a beginning of the ranking, no longer than the bound, and the report of
a cut says how much of how much it is. -/
theorem cuts_of_the_ranking_are_reported (hE : E.Ordered key) (opts : Options) :
    (∀ input : InstantInput F, input.scalar = none → input.resultType ≠ "string" →
      let res := E.encodeInstant input opts
      let n := res.rows.length
      (n : Int) ≤ opts.withDefaults.maxItems ∧
        Reported res.truncated n input.vector.length input.vector.length ∧
        ∃ ranked : List (VectorSample F), ranked.Perm input.vector ∧
          ranked.Pairwise (fun a b => rankOf (key a.value.v) (labelKey a.metric) ≤
            rankOf (key b.value.v) (labelKey b.metric)) ∧
          res.rows = E.vectorRows (ranked.take n) res.sharedLabels) ∧
    ∀ input : RangeInput F, input.seriesTotalHint ≤ input.matrix.length →
      let res := E.encodeRange input opts
      let n := res.series.length
      (n : Int) ≤ opts.withDefaults.maxSeries ∧
        Reported res.truncated n input.matrix.length input.matrix.length ∧
        ∃ ranked : List (SeriesStream F), ranked.Perm input.matrix ∧
          ranked.Pairwise (fun a b => seriesRank E key a ≤ seriesRank E key b) ∧
          (res.sharedLabels, res.series) = E.factorShared (E.buildSeries
            ((ranked.take n).map E.rankedSeries) input.start input.step res.points) := by
  constructor
  · intro input hscalar htype
    obtain ⟨n, hmax, hle, hreport, hshared, hrows⟩ :=
      encodeInstant_vector (E := E) hscalar htype opts
    have hlen : (E.encodeInstant input opts).rows.length = n := by
      rw [hrows, vectorRows, length_map, length_take, rankSamples, length_insertionSort]
      exact Nat.min_eq_left hle
    simp only [hlen]
    refine ⟨hmax, hreport, _, perm_insertionSort _ _, ?_, hshared ▸ hrows⟩
    exact pairwise_rank (fun s => rankOf (key s.value.v) (labelKey s.metric))
      (fun a b => ranksBefore_iff hE _ _ _ _) input.vector
  · intro input hhint
    obtain ⟨n, hmax, hle, hreport, hseries⟩ := encodeRange_series E input opts
    rw [rankByMax_eq, ← map_take] at hseries
    have hlen : (E.encodeRange input opts).series.length = n := by
      rw [(Prod.mk.inj hseries).2, length_map, buildSeries, length_map, length_map, length_take,
        length_insertionSort]
      exact Nat.min_eq_left hle
    simp only [hlen]
    rw [max_eq_right hhint, Int.toNat_natCast] at hreport
    exact ⟨hmax, hreport, _, perm_insertionSort _ _,
      pairwise_rank (seriesRank E key) (seriesBefore_iff hE) input.matrix, hseries⟩

end Encoder

/-- Whole numbers, and NaN below them. -/
def wholeEncoder : Encoder (WithBot Nat) where
  same v w := decide (v = w ∧ v ≠ ⊥)
  compare v w := cmp v w
  finite v := decide (v ≠ ⊥)
  round v := v
  index _ _ _ := 0
  order := map_range.ascending
  rowTokens _ := 0
  seriesTokens _ := 0

theorem ordered_wholeEncoder : wholeEncoder.Ordered id :=
  ⟨fun _ _ => decide_eq_true_iff, fun _ _ => rfl, fun _ => of_decide_eq_true⟩

/-- Samples with these labels and values. -/
def vectorOf (samples : List (StrMap String × WithBot Nat)) : InstantInput (WithBot Nat) :=
  ⟨samples.map fun x => ⟨x.1, ⊥, x.2⟩, none, "", "vector", []⟩

def oneLabel (k v : String) : StrMap String := (∅ : StrMap String).insert k v

/-- Two values are equal, and one is NaN. -/
theorem three_samples_are_encoded_in_one_order :
    let a := (oneLabel "a" "1", WithBot.some 3)
    let b := (oneLabel "b" "2", WithBot.some 3)
    let c := (oneLabel "a" "1,b=2", ⊥)
    wholeEncoder.encodeInstant (vectorOf [c, b, a]) ⟨0, 2, 0⟩ =
      wholeEncoder.encodeInstant (vectorOf [a, b, c]) ⟨0, 2, 0⟩ := by
  intro a b c
  refine ((((Encoder.encodings_ignore_the_order_iff_no_two_are_level ordered_wholeEncoder).1
    (vectorOf [a, b, c]) rfl (by decide)).mpr ?_) ⟨0, 2, 0⟩ _ (reverse_perm _)).1
  have hlevel : ∀ i j : Fin 3, wholeEncoder.sampleBefore ((vectorOf [a, b, c]).vector.get i)
      ((vectorOf [a, b, c]).vector.get j) = true → i ≤ j := by decide +kernel
  intro x hx y hy hxy hyx
  obtain ⟨i, rfl⟩ := get_of_mem hx
  obtain ⟨j, rfl⟩ := get_of_mem hy
  rw [le_antisymm (hlevel i j hxy) (hlevel j i hyx)]

/-- Two label sets with the same label key are encoded in the order of the cluster, and so are
two samples that are NaN. -/
theorem equal_label_keys_keep_their_order :
    let a := oneLabel "a" "1,b=2"
    let b := (oneLabel "a" "1").insert "b" "2"
    let rows samples := ((wholeEncoder.encodeInstant (vectorOf samples) ⟨0, 0, 0⟩).rows).map
      InstantRow.labels
    let one := WithBot.some 1
    a ≠ b ∧ rows [(a, one), (b, one)] ≠ rows [(b, one), (a, one)] ∧
      rows [(oneLabel "a" "1", ⊥), (oneLabel "b" "2", ⊥)] ≠
        rows [(oneLabel "b" "2", ⊥), (oneLabel "a" "1", ⊥)] := by
  decide +kernel

theorem two_of_three_samples_are_reported :
    let samples := [(oneLabel "a" "1", ⊥), (oneLabel "a" "2", WithBot.some 1),
      (oneLabel "a" "3", WithBot.some 2)]
    let res := wholeEncoder.encodeInstant (vectorOf samples) ⟨0, 2, 0⟩
    res.rows.map InstantRow.labels = [oneLabel "a" "3", oneLabel "a" "2"] ∧
      Reported res.truncated res.rows.length 3 3 :=
  ⟨by decide +kernel, ((Encoder.cuts_of_the_ranking_are_reported ordered_wholeEncoder
    ⟨0, 2, 0⟩).1 _ rfl (by decide)).2.1⟩

end prom_fleet.render
