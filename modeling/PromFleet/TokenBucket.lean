-- The budget of a token bucket: what a bucket that refills at a constant rate can hand out
-- in a window of time.
import Mathlib.Algebra.Order.Field.Basic
import Mathlib.Data.List.Chain
import Mathlib.Tactic.Linarith
import Mathlib.Tactic.Ring

namespace prom_fleet.token_bucket

open List

variable {K : Type} [Field K] [LinearOrder K] [IsStrictOrderedRing K]

/-- One visit to the bucket: whether it has taken a token, and how many are left. -/
structure Take (K : Type) where
  time : K
  taken : Bool
  left : K

def Take.cost (a : Take K) : K := if a.taken then 1 else 0

/-- The bucket is never overdrawn, and never holds more than `cap`. -/
structure Take.Within (cap : K) (a : Take K) : Prop where
  nonneg : 0 ≤ a.left
  fits : a.left + a.cost ≤ cap

/-- Between two visits the bucket has gained no more than the rate allows. -/
structure Take.Before (rate : K) (a b : Take K) : Prop where
  le : a.time ≤ b.time
  gain : b.left + b.cost ≤ a.left + rate * (b.time - a.time)

/-- How many tokens were taken in the window from `x` to `y`. -/
def takenIn (x y : K) (xs : List (Take K)) : Nat :=
  (xs.filter fun a => a.taken && decide (x ≤ a.time) && decide (a.time ≤ y)).length

variable {rate cap x y : K} {a : Take K} {xs : List (Take K)}

omit [IsStrictOrderedRing K] in
theorem takenIn_cons : (takenIn x y (a :: xs) : K) =
      (if x ≤ a.time ∧ a.time ≤ y then a.cost else 0) + takenIn x y xs := by
  unfold takenIn Take.cost
  rw [filter_cons]
  by_cases hx : x ≤ a.time
  · by_cases hy : a.time ≤ y
    · cases a.taken
      · simp [hx, hy]
      · simp [hx, hy, add_comm]
    · simp [hy]
  · simp [hx]

theorem Take.cost_nonneg (a : Take K) : 0 ≤ a.cost := by
  unfold Take.cost
  split
  · exact zero_le_one
  · exact le_refl 0

omit [IsStrictOrderedRing K] in
theorem takenIn_eq_zero (h : (a :: xs).IsChain (Take.Before rate)) (hy : y < a.time) :
    (takenIn x y xs : K) = 0 := by
  induction xs generalizing a with
  | nil => simp [takenIn]
  | cons b xs ih =>
    obtain ⟨hab, hrest⟩ := isChain_cons_cons.mp h
    have hb : y < b.time := lt_of_lt_of_le hy hab.le
    rw [takenIn_cons, if_neg (fun hin => absurd hin.2 (not_le.mpr hb)), zero_add]
    exact ih hrest hb

/-- After a visit the rest of the window gives what that visit has left, and the refill. -/
theorem takenIn_le_of_left (h : (a :: xs).IsChain (Take.Before rate))
    (hxs : ∀ b ∈ a :: xs, b.Within cap) (hrate : 0 ≤ rate) (hy : a.time ≤ y) :
    (takenIn x y xs : K) ≤ a.left + rate * (y - a.time) := by
  induction xs generalizing a with
  | nil =>
    have hleft := (hxs a mem_cons_self).nonneg
    have hgain : 0 ≤ rate * (y - a.time) := mul_nonneg hrate (sub_nonneg.mpr hy)
    simp only [takenIn, filter_nil, length_nil, Nat.cast_zero]
    linarith
  | cons b xs ih =>
    obtain ⟨hab, hrest⟩ := isChain_cons_cons.mp h
    have hgain := hab.gain
    rw [takenIn_cons]
    by_cases hb : b.time ≤ y
    · have hnext := ih hrest (fun c hc => hxs c (mem_cons_of_mem a hc)) hb
      have hcost : (if x ≤ b.time ∧ b.time ≤ y then b.cost else 0) ≤ b.cost := by
        split
        · exact le_refl _
        · exact b.cost_nonneg
      linarith
    · rw [if_neg (fun hin => hb hin.2), takenIn_eq_zero hrest (not_le.mp hb)]
      have hleft := (hxs a mem_cons_self).nonneg
      have hrefill : 0 ≤ rate * (y - a.time) := mul_nonneg hrate (sub_nonneg.mpr hy)
      linarith

/-- A bucket hands out no more than it can hold and what it gains in the window. -/
theorem takenIn_le (h : xs.IsChain (Take.Before rate)) (hxs : ∀ b ∈ xs, b.Within cap)
    (hrate : 0 ≤ rate) (hcap : 0 ≤ cap) (hxy : x ≤ y) :
    (takenIn x y xs : K) ≤ cap + rate * (y - x) := by
  have hwindow : 0 ≤ rate * (y - x) := mul_nonneg hrate (sub_nonneg.mpr hxy)
  induction xs with
  | nil =>
    simp only [takenIn, filter_nil, length_nil, Nat.cast_zero]
    linarith
  | cons a xs ih =>
    rw [takenIn_cons]
    by_cases hx : x ≤ a.time
    · by_cases hy : a.time ≤ y
      · rw [if_pos ⟨hx, hy⟩]
        have hrest := takenIn_le_of_left (x := x) h hxs hrate hy
        have hfits := (hxs a mem_cons_self).fits
        have hlater : rate * (y - a.time) ≤ rate * (y - x) :=
          mul_le_mul_of_nonneg_left (by linarith) hrate
        linarith
      · rw [if_neg (fun hin => hy hin.2), takenIn_eq_zero h (not_le.mp hy)]
        linarith
    · rw [if_neg (fun hin => hx hin.1), zero_add]
      exact ih (isChain_cons.mp h).2 fun b hb => hxs b (mem_cons_of_mem a hb)

end prom_fleet.token_bucket
