-- How the renderer shortens a list and says so: a cut at a limit, and a second cut until
-- the estimate of the tokens fits under the ceiling of the hub.
import PromFleet.RenderStep

namespace prom_fleet.render

open gotime List

inductive TruncationReason where
  | limit
  | maxSeries
  | tokenCeiling
  deriving DecidableEq

structure Truncation where
  returned : Nat
  total : Nat
  reason : TruncationReason
  hint : String
  selection : String
  deriving DecidableEq

def selectionTopNByMax (n : Int) : String := "top_" ++ toString n ++ "_by_max"

section Items

variable {α : Type}

def truncateItems (items : List α) (limit : Int) (hint : String) : List α × Option Truncation :=
  if limit ≤ 0 ∨ (items.length : Int) ≤ limit then (items, none)
  else (items.take limit.toNat, some ⟨limit.toNat, items.length, .limit, hint, ""⟩)

variable (trunc : Option Truncation)

def escalate (returned : Nat) (reason : TruncationReason)
    (hint : String) : Truncation :=
  match trunc with
  | none => ⟨returned, returned, reason, hint, ""⟩
  | some t => { t with
      returned := returned, reason := reason, hint := if hint ≠ "" then hint else t.hint }

/-- The loop of `FitTokens`, from the count `n`. The count goes down in each round, so the
length of the list bounds the number of rounds. -/
def fitLoop (size : List α → Int) (ceiling : Int) (items : List α) : Nat → Int → List α
  | 0, _ => []
  | rounds + 1, n =>
    if n ≤ 0 then []
    else
      let cost := size (items.take n.toNat)
      if cost ≤ ceiling then items.take n.toNat
      else fitLoop size ceiling items rounds ((wrap64 (n * ceiling)).tdiv (max cost 1))

/-- `FitTokens`, with the estimate for a list: what fits, and whether it is shorter. -/
def fitTokens (size : List α → Int) (ceiling : Int) (items : List α) : List α × Bool :=
  if ceiling ≤ 0 ∨ items = [] then (items, false)
  else if size items ≤ ceiling then (items, false)
  else (fitLoop size ceiling items items.length items.length, true)

/-- The two cuts of a listing tool: at the limit, and then under the ceiling. The total is
that of the whole list. -/
def cutList (size : List α → Int) (ceiling : Int) (items : List α) (limit : Int)
    (hint ceilingHint : String) : List α × Option Truncation :=
  let (kept, trunc) := truncateItems items limit hint
  let (fitted, hit) := fitTokens size ceiling kept
  (fitted,
    if hit then
      some { escalate trunc fitted.length .tokenCeiling ceilingHint with total := items.length }
    else trunc)

/-- What a cut to `n` of the items says: nothing if all of them are left, and otherwise how many
are left of how many. -/
def Reported (n length total : Nat) : Prop :=
  (trunc = none ↔ n = length) ∧ ∀ t, trunc = some t → t.returned = n ∧ t.total = total

/-! ## What a cut leaves -/

variable {size : List α → Int} {ceiling n : Int} {items : List α} {limit : Int} {hint : String}

theorem truncateItems_cases (items : List α) (hlimit : 0 < limit) (hint : String) :
    ((items.length : Int) ≤ limit ∧ truncateItems items limit hint = (items, none)) ∨
      (limit < items.length ∧ truncateItems items limit hint =
        (items.take limit.toNat, some ⟨limit.toNat, items.length, .limit, hint, ""⟩)) := by
  unfold truncateItems
  split
  · rename_i h
    exact .inl ⟨by omega, rfl⟩
  · rename_i h
    exact .inr ⟨by omega, rfl⟩

theorem truncateItems_take (hlimit : 0 < limit) :
    (truncateItems items limit hint).1 = items.take limit.toNat := by
  rcases truncateItems_cases items hlimit hint with ⟨hle, h⟩ | ⟨-, h⟩
  · rw [h, take_of_length_le (by omega)]
  · rw [h]

theorem fitLoop_take (rounds : Nat) (n : Int) :
    ∃ k, fitLoop size ceiling items rounds n = items.take k := by
  induction rounds generalizing n with
  | zero => exact ⟨0, rfl⟩
  | succ rounds ih =>
    unfold fitLoop
    dsimp only
    split
    · exact ⟨0, rfl⟩
    split
    · exact ⟨n.toNat, rfl⟩
    · exact ih _

theorem fitTokens_take (size : List α → Int) (ceiling : Int) (items : List α) :
    ∃ k, (fitTokens size ceiling items).1 = items.take k := by
  unfold fitTokens
  split
  · exact ⟨items.length, (take_length).symm⟩
  split
  · exact ⟨items.length, (take_length).symm⟩
  · exact fitLoop_take _ _

theorem next_lt {cost : Int} (hn : 0 < n) (hceiling : 0 < ceiling) (hcost : ceiling < cost) :
    (wrap64 (n * ceiling)).tdiv (max cost 1) < n := by
  have hprod : 0 < n * ceiling := Int.mul_pos hn hceiling
  have hwrap : wrap64 (n * ceiling) ≤ n * ceiling := wrap64_le hprod.le
  rw [max_eq_left (by omega)]
  rcases le_or_gt 0 (wrap64 (n * ceiling)) with hnonneg | hneg
  · rw [Int.tdiv_eq_ediv_of_nonneg hnonneg, Int.ediv_lt_iff_lt_mul (by omega)]
    exact hwrap.trans_lt (Int.mul_lt_mul_of_pos_left hcost hn)
  · have hdiv : 0 ≤ (-wrap64 (n * ceiling)).tdiv cost := Int.tdiv_nonneg (by omega) (by omega)
    rw [Int.neg_tdiv] at hdiv
    omega

/-- The count of the round after the count `n`. -/
def nextCount (size : List α → Int) (ceiling : Int) (items : List α) (n : Int) : Int :=
  (wrap64 (n * ceiling)).tdiv (max (size (items.take n.toNat)) 1)

/-- The loop ends before it runs out of rounds: it reaches a count that is zero or that fits. -/
theorem fitLoop_ends (size : List α → Int) (items : List α) {rounds : Nat} (hceiling : 0 < ceiling)
    (h : n ≤ rounds) : ∃ k ≤ rounds, ∃ m ≤ n, (nextCount size ceiling items)^[k] n = m ∧
      (m ≤ 0 ∨ size (items.take m.toNat) ≤ ceiling) ∧
      fitLoop size ceiling items rounds n = items.take m.toNat := by
  induction rounds generalizing n with
  | zero =>
    have hn : n ≤ 0 := by simpa using h
    exact ⟨0, le_rfl, n, le_rfl, rfl, .inl hn, by simp [fitLoop, Int.toNat_of_nonpos hn]⟩
  | succ rounds ih =>
    unfold fitLoop
    split
    · rename_i hn
      exact ⟨0, Nat.zero_le _, n, le_rfl, rfl, .inl hn, by simp [Int.toNat_of_nonpos hn]⟩
    rename_i hn
    dsimp only
    split
    · rename_i hcost
      exact ⟨0, Nat.zero_le _, n, le_rfl, rfl, .inr hcost, rfl⟩
    rename_i hcost
    have hlt : nextCount size ceiling items n < n :=
      next_lt (not_le.mp hn) hceiling (not_le.mp hcost)
    obtain ⟨k, hk, m, hle, hm, hend, hloop⟩ := ih (n := nextCount size ceiling items n) (by omega)
    exact ⟨k + 1, by omega, m, by omega, hm, hend, hloop⟩

theorem fitTokens_not_hit (h : (fitTokens size ceiling items).2 = false) :
    (fitTokens size ceiling items).1 = items := by
  unfold fitTokens at h ⊢
  split at h
  · rw [if_pos ‹_›]
  split at h
  · rw [if_neg ‹_›, if_pos ‹_›]
  · cases h

theorem fitTokens_hit :
    (fitTokens size ceiling items).2 = true ↔ 0 < ceiling ∧ items ≠ [] ∧ ceiling < size items := by
  unfold fitTokens
  split
  · rename_i h
    constructor
    · intro hhit
      cases hhit
    rintro ⟨hpos, hne, -⟩
    rcases h with h | h
    · omega
    · exact absurd h hne
  · rename_i h
    split
    · rename_i hcost
      constructor
      · intro hhit
        cases hhit
      · rintro ⟨-, -, hlt⟩
        omega
    · rename_i hcost
      have hpos : 0 < ceiling := by omega
      exact ⟨fun _ => ⟨hpos, fun hnil => h (.inr hnil), not_le.mp hcost⟩, fun _ => rfl⟩

/-- The rounds of a cut end at a count below the number of the items. -/
theorem fitTokens_cut (hhit : (fitTokens size ceiling items).2 = true) :
    ∃ k ≤ items.length, ∃ m < (items.length : Int),
      (nextCount size ceiling items)^[k] items.length = m ∧
      (m ≤ 0 ∨ size (items.take m.toNat) ≤ ceiling) ∧
      (fitTokens size ceiling items).1 = items.take m.toNat := by
  obtain ⟨hpos, hne, hcost⟩ := fitTokens_hit.mp hhit
  obtain ⟨k, hk, m, hle, hm, hend, hout⟩ := fitLoop_ends size items (n := items.length) hpos le_rfl
  refine ⟨k, hk, m, lt_of_le_of_ne hle ?_, hm, hend, ?_⟩
  · -- the whole list does not fit
    rintro rfl
    have hlen := length_pos_of_ne_nil hne
    rw [Int.toNat_natCast, take_length] at hend
    omega
  · unfold fitTokens
    rw [if_neg (not_or.mpr ⟨not_le.mpr hpos, hne⟩), if_neg (not_le.mpr hcost), hout]

theorem length_fitTokens_lt (hhit : (fitTokens size ceiling items).2 = true) :
    (fitTokens size ceiling items).1.length < items.length := by
  obtain ⟨-, hne, -⟩ := fitTokens_hit.mp hhit
  have hlen := length_pos_of_ne_nil hne
  obtain ⟨-, -, m, hlt, -, -, hout⟩ := fitTokens_cut hhit
  rw [hout, length_take]
  omega

/-- The fitting ends after at most as many rounds as there are items, also when the product
wraps around, with a beginning of the list. Without a cut it is the whole list, which fits;
with a cut it is shorter, and it is empty or fits. -/
theorem token_fitting_ends_with_a_fitting_prefix (size : List α → Int) (ceiling : Int)
    (items : List α) :
    let out := fitTokens size ceiling items
    out.1 <+: items ∧
      (out.2 = false → out.1 = items ∧ (0 < ceiling → items ≠ [] → size items ≤ ceiling)) ∧
      (out.2 = true → out.1.length < items.length ∧ (out.1 = [] ∨ size out.1 ≤ ceiling) ∧
        ∃ k ≤ items.length, ∃ m < (items.length : Int),
          (nextCount size ceiling items)^[k] items.length = m ∧
          (m ≤ 0 ∨ size (items.take m.toNat) ≤ ceiling) ∧ out.1 = items.take m.toNat) := by
  refine ⟨?_, fun h => ⟨fitTokens_not_hit h, fun hpos hne => ?_⟩,
    fun h => ⟨length_fitTokens_lt h, ?_, fitTokens_cut h⟩⟩
  · obtain ⟨k, hk⟩ := fitTokens_take size ceiling items
    rw [hk]
    exact take_prefix k items
  · by_contra hcost
    rw [fitTokens_hit.mpr ⟨hpos, hne, not_le.mp hcost⟩] at h
    cases h
  · obtain ⟨-, -, m, -, -, hend, hout⟩ := fitTokens_cut h
    rw [hout]
    refine hend.imp_left fun hm => ?_
    rw [Int.toNat_of_nonpos hm, take_zero]

theorem returned_escalate (returned : Nat)
    (reason : TruncationReason) (hint : String) :
    (escalate trunc returned reason hint).returned = returned := by
  cases trunc <;> rfl

variable {ceilingHint : String}

theorem length_cutList_le (hlimit : 0 < limit) :
    (cutList size ceiling items limit hint ceilingHint).1.length ≤ items.length := by
  obtain ⟨k, hk⟩ := fitTokens_take size ceiling (truncateItems items limit hint).1
  unfold cutList
  dsimp only
  rw [hk, truncateItems_take hlimit, take_take]
  exact length_take_le' _ _

theorem reported_truncateItems (items : List α) (hlimit : 0 < limit) (hint : String) :
    let out := truncateItems items limit hint
    Reported out.2 out.1.length items.length items.length := by
  rcases truncateItems_cases items hlimit hint with ⟨-, h⟩ | ⟨hcut, h⟩
  · simp [h, Reported]
  · rw [h]
    refine ⟨by simp; omega, fun t ht => ?_⟩
    cases ht
    exact ⟨by simp; omega, rfl⟩

variable {trunc : Option Truncation}

theorem Reported.map {k length total : Nat}
    (h : Reported trunc k length total) (more : Truncation → Truncation)
    (hmore : ∀ t, (more t).returned = t.returned ∧ (more t).total = t.total) :
    Reported (trunc.map more) k length total := by
  refine ⟨Option.map_eq_none_iff.trans h.1, fun t ht => ?_⟩
  obtain ⟨t, htrunc, rfl⟩ := Option.map_eq_some_iff.mp ht
  rw [(hmore t).1, (hmore t).2]
  exact h.2 t htrunc

/-- The second cut leaves a beginning too, and what it reports replaces the first report. -/
theorem fit_reported (size : List α → Int) (ceiling : Int) {kept : List α}
    {total : Nat} (hkept : kept <+: items)
    (h : Reported trunc kept.length items.length total) :
    let out := fitTokens size ceiling kept
    (out.1.length ≤ kept.length ∧ out.1 = items.take out.1.length) ∧
      ∀ t : Truncation, t.returned = out.1.length → t.total = total →
        Reported (if out.2 then some t else trunc) out.1.length items.length total := by
  intro out
  obtain ⟨k, hk⟩ : ∃ k, out.1 = kept.take k := fitTokens_take size ceiling kept
  have hfirst : out.1 <+: kept := hk ▸ take_prefix k kept
  refine ⟨⟨hfirst.length_le, prefix_iff_eq_take.mp (hfirst.trans hkept)⟩, fun t hn htotal => ?_⟩
  cases hhit : out.2 with
  | true =>
    have hlt : out.1.length < kept.length := length_fitTokens_lt hhit
    have hle := hkept.length_le
    refine ⟨by simp; omega, ?_⟩
    rintro t ⟨⟩
    exact ⟨hn, htotal⟩
  | false =>
    have hall : out.1 = kept := fitTokens_not_hit hhit
    rw [hall]
    exact h

theorem truncateItems_begins (items : List α) (limit : Int) (hint : String) :
    (truncateItems items limit hint).1 <+: items := by
  unfold truncateItems
  split
  · exact prefix_rfl
  · exact take_prefix _ _

/-- A list that is cut says so, with the number that is left and the number that was there. -/
theorem cutList_honest (hlimit : 0 < limit) :
    let out := cutList size ceiling items limit hint ceilingHint
    (out.2 ≠ none ↔ out.1.length < items.length) ∧
      ∀ trunc, out.2 = some trunc →
        trunc.returned = out.1.length ∧ trunc.total = items.length := by
  intro out
  have hle : out.1.length ≤ items.length := length_cutList_le hlimit
  have hreport : Reported out.2 out.1.length items.length items.length :=
    (fit_reported size ceiling (truncateItems_begins items limit hint)
      (reported_truncateItems items hlimit hint)).2 _ (returned_escalate _ _ _ _) rfl
  exact ⟨(not_congr hreport.1).trans ⟨lt_of_le_of_ne hle, LT.lt.ne⟩, hreport.2⟩

/-- Nothing is cut from a list within the limit and under the ceiling, and something from
every other. -/
theorem length_cutList_eq (hlimit : 0 < limit) :
    (cutList size ceiling items limit hint ceilingHint).1.length = items.length ↔
      (items.length : Int) ≤ limit ∧ (0 < ceiling → size items ≤ ceiling ∨ items = []) := by
  unfold cutList
  dsimp only
  rcases truncateItems_cases items hlimit hint with ⟨hle, h⟩ | ⟨hcut, h⟩
  · rw [h]
    dsimp only
    cases hhit : (fitTokens size ceiling items).2 with
    | true =>
      have hlt := length_fitTokens_lt hhit
      obtain ⟨hpos, hne, hcost⟩ := fitTokens_hit.mp hhit
      constructor
      · intro heq
        omega
      rintro ⟨-, hfits⟩
      rcases hfits hpos with hfits | hnil
      · omega
      · exact absurd hnil hne
    | false =>
      rw [fitTokens_not_hit hhit]
      refine ⟨fun _ => ⟨hle, fun hpos => ?_⟩, fun _ => rfl⟩
      by_contra hbig
      rw [not_or, not_le] at hbig
      rw [fitTokens_hit.mpr ⟨hpos, hbig.2, hbig.1⟩] at hhit
      cases hhit
  · rw [h]
    obtain ⟨k, hk⟩ := fitTokens_take size ceiling (items.take limit.toNat)
    rw [hk]
    simp only [length_take]
    omega

end Items

end prom_fleet.render
