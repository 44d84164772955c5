-- The limiter of failed authentications: a bucket of tokens for each source, a failure takes
-- one, and a failure that finds none starts a backoff. A source that has not failed more often
-- than the burst since its last success is let through.
import PromFleet.GoTime
import PromFleet.Lru
import Mathlib.Tactic.Linarith

namespace prom_fleet.authn

open gotime lru Function

def failureBurst : Nat := 10
def failureWindow : Int := 60 * second
def firstPenalty : Int := second
def maxPenalty : Int := 300 * second
def limiterEntries : Nat := 8192

/-- The rounding of `float64` arithmetic. -/
structure Rounding where
  round : Rat → Rat
  mono : ∀ x y, x ≤ y → round x ≤ round y
  /-- The numbers of whole tokens are floats. -/
  exact : ∀ n : Nat, n ≤ failureBurst → round n = n

structure FailureBucket where
  tokens : Rat
  last : Int
  penalty : Int
  penaltyUntil : Int

variable (r : Rounding)

def refill (b : FailureBucket) (now : Int) : FailureBucket :=
  let elapsed := timeSub now b.last
  if elapsed ≤ 0 then b
  else
    let share := r.round (r.round elapsed / r.round failureWindow)
    { b with
      last := now
      tokens := min (r.round (b.tokens + r.round (share * failureBurst))) failureBurst }

/-- The part of `Fail` that debits a bucket. -/
def debit (b : FailureBucket) (now : Int) : FailureBucket :=
  let b := refill r b now
  if 1 ≤ b.tokens then { b with tokens := r.round (b.tokens - 1) }
  else
    let penalty :=
      if b.penalty = 0 then firstPenalty
      else if b.penaltyUntil < now then min (b.penalty * 2) maxPenalty
      else b.penalty
    let till := timeAdd now penalty
    { b with penalty, penaltyUntil := if b.penaltyUntil < till then till else b.penaltyUntil }

/-- The state of the limiter. `failures` is no data of the source: it counts, for each source,
the failures that were recorded since its last success. -/
structure FailureLimiter where
  cache : Lru String FailureBucket
  failures : String → Nat

def newFailureLimiter : FailureLimiter := ⟨new limiterEntries, fun _ => 0⟩

namespace FailureLimiter

variable (l : FailureLimiter) (src : String) (now : Int)

def allow : Bool × FailureLimiter :=
  if src = "" then (true, l)
  else
    match (get src l.cache).1 with
    | none => (true, l)
    | some b =>
      let b := refill r b now
      (decide (b.penaltyUntil ≤ now), { l with cache := put src b l.cache })

def fail : FailureLimiter :=
  if src = "" then l
  else
    let b := (get src l.cache).1.getD ⟨failureBurst, now, 0, 0⟩
    { cache := put src (debit r b now) l.cache
      failures := update l.failures src (l.failures src + 1) }

def succeed : FailureLimiter :=
  if src = "" then l
  else
    { cache :=
        match (get src l.cache).1 with
        | none => l.cache
        | some _ => put src ⟨failureBurst, now, 0, 0⟩ l.cache
      failures := update l.failures src 0 }

end FailureLimiter

/-! ## Within the burst -/

variable {r} {b : FailureBucket} {l : FailureLimiter} {n : Nat}

/-- What a bucket is after `n` failures, as long as the burst covers them: it has the tokens of
the others, and no backoff. -/
def Covered (n : Nat) (b : FailureBucket) : Prop :=
  n ≤ failureBurst → b.penaltyUntil = 0 ∧ ((failureBurst - n : Nat) : Rat) ≤ b.tokens

theorem covered_full (n : Nat) (now : Int) : Covered n ⟨failureBurst, now, 0, 0⟩ :=
  fun _ => ⟨rfl, Nat.cast_le.mpr (Nat.sub_le _ _)⟩

theorem le_round {k : Nat} {x : Rat} (hk : k ≤ failureBurst) (h : k ≤ x) : k ≤ r.round x := by
  have hmono := r.mono k x h
  rwa [r.exact k hk] at hmono

theorem round_nonneg {x : Rat} (h : 0 ≤ x) : 0 ≤ r.round x := by
  have hround := le_round (r := r) (Nat.zero_le failureBurst) (Nat.cast_zero (R := Rat) ▸ h)
  rwa [Nat.cast_zero] at hround

theorem Covered.refill (h : Covered n b) (now : Int) : Covered n (refill r b now) := by
  intro hn
  obtain ⟨hpenalty, htokens⟩ := h hn
  unfold authn.refill
  dsimp only
  split
  · exact ⟨hpenalty, htokens⟩
  rename_i helapsed
  have hwhole : (0 : Rat) ≤ timeSub now b.last := by
    exact_mod_cast (not_le.mp helapsed).le
  have hwindow : (0 : Rat) ≤ failureWindow := by
    exact_mod_cast (by decide : (0 : Int) ≤ failureWindow)
  have hshare := round_nonneg (r := r)
    (div_nonneg (round_nonneg (r := r) hwhole) (round_nonneg (r := r) hwindow))
  have hgain := round_nonneg (r := r) (mul_nonneg hshare (Nat.cast_nonneg failureBurst))
  refine ⟨hpenalty, le_min (le_round (Nat.sub_le _ _) ?_) (Nat.cast_le.mpr (Nat.sub_le _ _))⟩
  linarith

theorem Covered.debit (h : Covered n b) (now : Int) : Covered (n + 1) (debit r b now) := by
  intro hn
  obtain ⟨hpenalty, htokens⟩ := h.refill (r := r) now (Nat.le_of_succ_le hn)
  have hleft : failureBurst - n = (failureBurst - (n + 1)) + 1 := by omega
  rw [hleft, Nat.cast_succ] at htokens
  have hone : 1 ≤ (authn.refill r b now).tokens := by
    have := Nat.cast_nonneg (α := Rat) (failureBurst - (n + 1))
    linarith
  unfold authn.debit
  dsimp only
  rw [if_pos hone]
  refine ⟨hpenalty, le_round (Nat.sub_le _ _) ?_⟩
  linarith

/-- Every bucket is as its failures say. -/
def FailureLimiter.Counted (l : FailureLimiter) : Prop :=
  ∀ k b, (k, b) ∈ l.cache.entries → Covered (l.failures k) b

theorem counted_new : newFailureLimiter.Counted := fun _ _ h => absurd h List.not_mem_nil

namespace FailureLimiter

variable {src : String} {now : Int}

variable (h : l.Counted)

include h

theorem Counted.put {f : String → Nat} (hb : Covered (f src) b)
    (hf : ∀ k, k ≠ src → f k = l.failures k) : Counted ⟨put src b l.cache, f⟩ := by
  intro k b' hmem
  change Covered (f k) b'
  by_cases hk : k = src
  · subst hk
    rw [mem_put_self hmem]
    exact hb
  · rcases mem_put hmem with heq | hold
    · exact absurd (congrArg Prod.fst heq) hk
    · rw [hf k hk]
      exact h k b' hold

theorem Counted.of_get (hb : (get src l.cache).1 = some b) : Covered (l.failures src) b := by
  rw [get_value] at hb
  exact h src b (mem_of_find hb)

theorem Counted.allow : (l.allow r src now).2.Counted := by
  unfold FailureLimiter.allow
  split
  · exact h
  split
  · exact h
  · rename_i hget
    exact h.put ((h.of_get hget).refill now) fun _ _ => rfl

theorem Counted.fail : (l.fail r src now).Counted := by
  unfold FailureLimiter.fail
  split
  · exact h
  refine h.put ?_ fun k hk => update_of_ne hk _ _
  rw [update_self]
  refine .debit ?_ now
  cases hget : (get src l.cache).1 with
  | none => exact covered_full _ now
  | some b => exact h.of_get hget

theorem Counted.succeed : (l.succeed src now).Counted := by
  unfold FailureLimiter.succeed
  split
  · exact h
  split
  · rename_i hget
    intro k b hmem
    have hk : k ≠ src := by
      rintro rfl
      rw [get_value] at hget
      exact not_mem_of_find hget hmem
    change Covered (update l.failures src 0 k) b
    rw [update_of_ne hk]
    exact h k b hmem
  · exact h.put (covered_full _ now) fun k hk => update_of_ne hk _ _

/-- A source with no more failures than the burst since its last success is let through. -/
theorem Counted.allowed (hfew : l.failures src ≤ failureBurst) (hnow : 0 ≤ now) :
    (l.allow r src now).1 = true := by
  unfold FailureLimiter.allow
  split
  · rfl
  split
  · rfl
  rename_i hget
  obtain ⟨hpenalty, -⟩ := (h.of_get hget).refill now hfew
  dsimp only
  rw [hpenalty]
  exact decide_eq_true hnow

end FailureLimiter

end prom_fleet.authn
