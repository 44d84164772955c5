-- The rate limiter of the tools: a token bucket for each key, which is forgotten when a new
-- key comes after it has been idle for an hour. The arithmetic of the tokens is exact here.
import PromFleet.TokenBucket
import PromFleet.GoTime
import PromFleet.Identity
import PromFleet.MapRange
import Mathlib.Data.String.Basic
import Mathlib.Tactic.FieldSimp

namespace prom_fleet.rate_limiter

open fleet gotime map_range token_bucket List Finmap

/-! ## The limiter -/

structure Bucket where
  tokens : Rat
  last : Int
  seen : Int

/-- `bucketIdleEviction`, an hour. -/
def bucketIdleEviction : Int := 3600 * second

/-- A call of `allow`: who calls, what the clock says inside the lock, and the order in which
a loop over the buckets visits them. -/
structure Attempt where
  principal : Option Principal
  now : Int
  order : Range String Bucket

/-- The answer of `allow`. The wait is in nanoseconds. -/
structure Verdict where
  ok : Bool
  retryAfter : Rat
  deriving DecidableEq

def evictIdleLocked (buckets : StrMap Bucket) (order : Range String Bucket) (now : Int) :
    StrMap Bucket :=
  (sweep
    (fun _ b => !isZero b.seen && decide (bucketIdleEviction < timeSub now b.seen))
    (order.list buckets) (buckets, 0)).1

/-- The burst of a key. A rate without one still admits one call at a time. -/
def burstOf (rateBurst : Int) : Rat := if rateBurst < 1 then 1 else rateBurst

def Bucket.refill (b : Bucket) (rps burst : Rat) (now : Int) : Bucket :=
  if 0 < timeSub now b.last then
    { b with
      tokens := min burst (b.tokens + (timeSub now b.last : Rat) / second * rps), last := now }
  else b

/-- The bucket of a key. A key without one gets a full one, and idle ones are dropped then. -/
def bucketOf (buckets : StrMap Bucket) (kid : String) (burst : Rat) (order : Range String Bucket)
    (now : Int) : Bucket × StrMap Bucket :=
  match buckets.lookup kid with
  | some b => (b, buckets)
  | none =>
    let b : Bucket := { tokens := burst, last := now, seen := 0 }
    (b, evictIdleLocked (buckets.insert kid b) order now)

/-- The decision on a bucket that has been refilled: a wait until it has a whole token, or one
token less. -/
def Bucket.spend (b : Bucket) (rps : Rat) : Verdict × Bucket :=
  if b.tokens < 1 then (⟨false, (1 - b.tokens) / rps * second⟩, b)
  else (⟨true, 0⟩, { b with tokens := b.tokens - 1 })

/-- The part of `allow` under the lock. -/
def take (buckets : StrMap Bucket) (kid : String) (rps burst : Rat) (order : Range String Bucket)
    (now : Int) : Verdict × StrMap Bucket :=
  let held := bucketOf buckets kid burst order now
  let spent := Bucket.spend { held.1.refill rps burst now with seen := now } rps
  (spent.1, held.2.insert kid spent.2)

def allow (buckets : StrMap Bucket) (c : Attempt) : Verdict × StrMap Bucket :=
  match c.principal with
  | none => (⟨true, 0⟩, buckets)
  | some p =>
    match p.scope with
    | none => (⟨true, 0⟩, buckets)
    | some scope =>
      if scope.limits.rateRPS ≤ 0 then (⟨true, 0⟩, buckets)
      else
        take buckets p.kid scope.limits.rateRPS (burstOf scope.limits.rateBurst) c.order c.now

/-- The calls of a run, one after the other as the lock admits them, with their answers. -/
def attempts : StrMap Bucket → List Attempt → List (Attempt × Verdict)
  | _, [] => []
  | buckets, c :: cs => (c, (allow buckets c).1) :: attempts (allow buckets c).2 cs

def after (buckets : StrMap Bucket) (cs : List Attempt) : StrMap Bucket :=
  cs.foldl (fun buckets c => (allow buckets c).2) buckets

/-- The call is made with this key. -/
def Attempt.by (c : Attempt) (kid : String) : Bool := c.principal.any fun p => decide (p.kid = kid)

/-- The key of the call has this rate and this burst. -/
def Attempt.limited (c : Attempt) (rps : Rat) (burst : Int) : Prop :=
  ∃ p scope, c.principal = some p ∧ p.scope = some scope ∧ scope.limits.rateRPS = rps ∧
    scope.limits.rateBurst = burst

/-- How many calls of the key were admitted from the time `x` to the time `y`. -/
def admittedIn (kid : String) (x y : Rat) (vs : List (Attempt × Verdict)) : Nat :=
  (vs.filter fun v => v.1.by kid && v.2.ok && decide (x ≤ v.1.now) && decide (v.1.now ≤ y)).length

/-! ## One call -/

variable {buckets : StrMap Bucket} {kid kid' : String} {rps burst : Rat}
  {order : Range String Bucket} {now t : Int} {left : Rat}

theorem lookup_evictIdleLocked :
    (evictIdleLocked buckets order now).lookup kid = (buckets.lookup kid).filter fun b =>
      !(!isZero b.seen && decide (bucketIdleEviction < timeSub now b.seen)) := by
  exact lookup_sweep _ _ _ kid

/-- A distance of more than an hour is one, whether it has been cut or not. -/
theorem idle_of_timeSub (h : bucketIdleEviction < timeSub now t) :
    bucketIdleEviction < now - t := by
  unfold timeSub bucketIdleEviction second maxDuration minDuration at *
  omega

theorem timeSub_le (h : t ≤ now) : timeSub now t ≤ now - t := by
  unfold timeSub maxDuration minDuration
  omega

theorem timeSub_pos (h : t < now) : 0 < timeSub now t := by
  unfold timeSub maxDuration minDuration
  omega

/-- The tokens that a call finds. -/
def found (buckets : StrMap Bucket) (kid : String) (rps burst : Rat) (now : Int) : Rat :=
  match buckets.lookup kid with
  | some b => (b.refill rps burst now).tokens
  | none => burst

/-- No bucket has been refilled after `now`. -/
def Timed (buckets : StrMap Bucket) (now : Int) : Prop :=
  ∀ kid b, buckets.lookup kid = some b → b.last ≤ now

theorem Timed.later {now' : Int} (h : Timed buckets now) (hle : now ≤ now') :
    Timed buckets now' := fun kid b hb => (h kid b hb).trans hle

theorem last_refill {b : Bucket} (h : b.last ≤ now) : (b.refill rps burst now).last = now := by
  unfold Bucket.refill
  split
  · rfl
  rename_i hnot
  by_contra hne
  exact hnot (timeSub_pos (lt_of_le_of_ne h hne))

def verdict (rps tokens : Rat) : Verdict :=
  if tokens < 1 then ⟨false, (1 - tokens) / rps * second⟩ else ⟨true, 0⟩

/-- What a call leaves. -/
def leaves (tokens : Rat) : Rat := if tokens < 1 then tokens else tokens - 1

theorem spend_eq (b : Bucket) :
    b.spend rps = (verdict rps b.tokens, { b with tokens := leaves b.tokens }) := by
  unfold Bucket.spend verdict leaves
  split <;> rfl

/-- A call answers by the tokens that it finds, and leaves the rest to its key. -/
theorem take_self (kid : String) (rps burst : Rat) (order : Range String Bucket)
    (h : Timed buckets now) :
    (take buckets kid rps burst order now).1 = verdict rps (found buckets kid rps burst now) ∧
      (take buckets kid rps burst order now).2.lookup kid =
        some ⟨leaves (found buckets kid rps burst now), now, now⟩ := by
  have hheld : (bucketOf buckets kid burst order now).1.refill rps burst now =
      ⟨found buckets kid rps burst now, now,
        ((bucketOf buckets kid burst order now).1.refill rps burst now).seen⟩ := by
    unfold bucketOf found
    cases hb : buckets.lookup kid with
    | some b => exact congrArg (Bucket.mk _ · _) (last_refill (h kid b hb))
    | none => simp [Bucket.refill, timeSub, minDuration, maxDuration]
  unfold take
  dsimp only
  rw [spend_eq, lookup_insert, hheld]
  exact ⟨rfl, rfl⟩

theorem lookup_take_of_ne (buckets : StrMap Bucket) (rps : Rat) (order : Range String Bucket)
    (hne : kid' ≠ kid) :
    (take buckets kid rps burst order now).2.lookup kid' = buckets.lookup kid' ∨
      (take buckets kid rps burst order now).2.lookup kid' = none ∧
        ∃ b, buckets.lookup kid' = some b ∧ bucketIdleEviction < now - b.seen := by
  unfold take
  dsimp only
  rw [lookup_insert_of_ne _ hne]
  unfold bucketOf
  cases buckets.lookup kid with
  | some b => exact .inl rfl
  | none =>
    rw [lookup_evictIdleLocked, lookup_insert_of_ne _ hne]
    cases buckets.lookup kid' with
    | none => exact .inl rfl
    | some b' =>
      cases hidle : !isZero b'.seen && decide (bucketIdleEviction < timeSub now b'.seen) with
      | false => exact .inl (by simp [Option.filter, hidle])
      | true =>
        refine .inr ⟨by simp [Option.filter, hidle], b', rfl, ?_⟩
        simp only [Bool.and_eq_true, decide_eq_true_eq] at hidle
        exact idle_of_timeSub hidle.2

theorem take_timed (h : Timed buckets now) :
    Timed (take buckets kid rps burst order now).2 now := by
  intro kid' b hb
  by_cases hk : kid' = kid
  · subst hk
    rw [(take_self kid' rps burst order h).2] at hb
    cases hb
    exact le_refl now
  · rcases lookup_take_of_ne buckets rps order hk with hsame | ⟨hnone, _⟩
    · rw [hsame] at hb
      exact h kid' b hb
    · rw [hnone] at hb
      cases hb

/-! ## The bucket of one key -/

theorem burstOf_eq_max (b : Int) : burstOf b = max (b : Rat) 1 := by
  unfold burstOf
  split
  · rename_i h
    have hle : (b : Rat) ≤ 1 := by exact_mod_cast h.le
    exact (max_eq_right hle).symm
  · rename_i h
    have hle : (1 : Rat) ≤ b := by exact_mod_cast not_lt.mp h
    exact (max_eq_left hle).symm

theorem one_le_burstOf (b : Int) : 1 ≤ burstOf b := by
  rw [burstOf_eq_max]
  exact le_max_right _ _

/-- The gain of a key in a time, and its rate for each nanosecond. -/
theorem gain_eq (rps : Rat) (d : Int) : (d : Rat) / second * rps = rps / second * d := by
  ring

theorem second_pos : (0 : Rat) < second := by
  norm_num [second]

/-- The key has so many tokens left since its last call at `t`, or its bucket was dropped more
than an hour after that call. -/
structure Keeps (burst : Rat) (kid : String) (left : Rat) (t now : Int)
    (buckets : StrMap Bucket) : Prop where
  bucket : buckets.lookup kid = some ⟨left, t, t⟩ ∨
    buckets.lookup kid = none ∧ bucketIdleEviction < now - t
  nonneg : 0 ≤ left
  le_burst : left ≤ burst
  past : t ≤ now

variable {now' : Int}

theorem Keeps.later (h : Keeps burst kid left t now buckets) (hle : now ≤ now') :
    Keeps burst kid left t now' buckets where
  bucket := h.bucket.imp_right fun ⟨hnone, hidle⟩ => ⟨hnone, by omega⟩
  nonneg := h.nonneg
  le_burst := h.le_burst
  past := h.past.trans hle

/-- A key without a bucket is as good as one that has been idle for an hour. -/
theorem Keeps.first {b : Int} (h : buckets.lookup kid = none) :
    Keeps (burstOf b) kid (burstOf b) (now - bucketIdleEviction - 1) now buckets where
  bucket := Or.inr ⟨h, by omega⟩
  nonneg := zero_le_one.trans (one_le_burstOf b)
  le_burst := le_refl _
  past := by
    unfold bucketIdleEviction second
    omega

/-- The call of another key leaves the bucket alone, or drops it after an hour. -/
theorem Keeps.other (order : Range String Bucket) (b r : Rat) (hne : kid ≠ kid')
    (h : Keeps burst kid left t now buckets) :
    Keeps burst kid left t now (take buckets kid' r b order now).2 where
  bucket := by
    rcases lookup_take_of_ne buckets r order hne with hsame | ⟨hnone, b, hb, hidle⟩
    · rw [hsame]
      exact h.bucket
    rcases h.bucket with hold | ⟨hold, _⟩
    · rw [hold] at hb
      cases hb
      exact .inr ⟨hnone, hidle⟩
    · rw [hold] at hb
      cases hb
  nonneg := h.nonneg
  le_burst := h.le_burst
  past := h.past

section Rates

variable (hrps : 0 < rps)
include hrps

/-- An hour fills a bucket. -/
theorem burst_le_gain (hrefill : burst ≤ rps * 3600) (now t : Int)
    (h : bucketIdleEviction < now - t) : burst ≤ rps / second * (now - t) := by
  have hsecond := second_pos
  have hhour : (3600 * second : Rat) ≤ ((now - t : Int) : Rat) := by
    have := h.le
    exact_mod_cast this
  have hgain : rps / second * (3600 * second) ≤ rps / second * ((now - t : Int) : Rat) :=
    mul_le_mul_of_nonneg_left hhour (div_nonneg hrps.le hsecond.le)
  have heq : rps / second * (3600 * second) = rps * 3600 := by
    field_simp
  push_cast at hgain
  linarith

theorem found_le (h : Keeps burst kid left t now buckets) :
    0 ≤ found buckets kid rps burst now ∧ found buckets kid rps burst now ≤ burst := by
  have hleft := h.nonneg
  have hburst := h.le_burst
  unfold found
  rcases h.bucket with hb | ⟨hb, -⟩
  · rw [hb]
    simp only [Bucket.refill]
    split
    · rename_i hpos
      have hsome : 0 ≤ rps / second * (timeSub now t : Rat) :=
        mul_nonneg (div_nonneg hrps.le second_pos.le) (by exact_mod_cast hpos.le)
      rw [gain_eq]
      exact ⟨le_min (by linarith) (by linarith), min_le_left _ _⟩
    · exact ⟨hleft, hburst⟩
  · rw [hb]
    exact ⟨hleft.trans hburst, le_refl burst⟩

/-- A key finds no more tokens than it had left and has gained since. -/
theorem found_le_gain (hrefill : burst ≤ rps * 3600) (h : Keeps burst kid left t now buckets) :
    found buckets kid rps burst now ≤ left + rps / second * (now - t) := by
  have hrate : 0 ≤ rps / second := div_nonneg hrps.le second_pos.le
  unfold found
  rcases h.bucket with hb | ⟨hb, hidle⟩
  · rw [hb]
    simp only [Bucket.refill]
    split
    · have hcut : (timeSub now t : Rat) ≤ now - t := by exact_mod_cast timeSub_le h.past
      have hmore := mul_le_mul_of_nonneg_left hcut hrate
      rw [gain_eq]
      exact (min_le_right _ _).trans (by linarith)
    · have hpast : (t : Rat) ≤ now := by exact_mod_cast h.past
      exact le_add_of_nonneg_right (mul_nonneg hrate (sub_nonneg.mpr hpast))
  · rw [hb]
    have hfull := burst_le_gain hrps hrefill now t hidle
    have hleft := h.nonneg
    exact hfull.trans (by linarith)

/-- A key that has waited for the rest of a token finds a whole one. -/
theorem one_le_found (hlong : second ≤ rps * maxDuration) (hone : 1 ≤ burst) (hlow : left < 1)
    (h : Keeps burst kid left t now buckets) (hwait : t + (1 - left) / rps * second ≤ now) :
    1 ≤ found buckets kid rps burst now := by
  have hsecond := second_pos
  unfold found
  rcases h.bucket with hb | ⟨hb, _⟩
  · rw [hb]
    have hpos : 0 < (1 - left) / rps * second := mul_pos (div_pos (by linarith) hrps) hsecond
    have hlt : t < now := by
      have : (t : Rat) < now := by linarith
      exact_mod_cast this
    simp only [Bucket.refill]
    rw [if_pos (timeSub_pos hlt), gain_eq]
    refine le_min hone ?_
    by_cases hcut : now - t ≤ maxDuration
    · have hsub : timeSub now t = now - t := by
        unfold timeSub minDuration maxDuration at *
        omega
      have hgain : 1 - left = rps / second * ((1 - left) / rps * second) := by
        field_simp
      have hmore : rps / second * ((1 - left) / rps * second) ≤
          rps / second * ((now - t : Int) : Rat) := by
        refine mul_le_mul_of_nonneg_left ?_ (div_nonneg hrps.le hsecond.le)
        push_cast
        linarith
      rw [hsub]
      linarith
    · -- the distance has been cut to the longest one, in which a token comes
      have hsub : timeSub now t = maxDuration := by
        unfold timeSub minDuration maxDuration at *
        omega
      have hgain : 1 ≤ rps / second * maxDuration := by
        rw [div_mul_eq_mul_div, one_le_div hsecond]
        exact hlong
      have hleft := h.nonneg
      rw [hsub]
      linarith
  · rw [hb]
    exact hone

end Rates

/-! ## Runs -/

variable {c : Attempt} {cs : List Attempt} {b : Int}

theorem not_by_of_ne {p : Principal} (hp : c.principal = some p) (h : c.by kid = false) :
    kid ≠ p.kid := by
  rintro rfl
  simp [Attempt.by, hp] at h

theorem allow_by (hrps : 0 < rps) (hby : c.by kid = true) (hlim : c.limited rps b) :
    allow buckets c = take buckets kid rps (burstOf b) c.order c.now := by
  obtain ⟨p, scope, hp, hscope, hrate, hburst⟩ := hlim
  have hkid : p.kid = kid := by simpa [Attempt.by, hp] using hby
  unfold allow
  simp only [hp, hscope, hrate, hburst, hkid, not_le.mpr hrps, if_false]

/-- Any other call is let through, or spends from the bucket of its own key. -/
theorem allow_cases (buckets : StrMap Bucket) (c : Attempt) :
    (allow buckets c).2 = buckets ∨ ∃ p r b, c.principal = some p ∧
      allow buckets c = take buckets p.kid r b c.order c.now := by
  unfold allow
  cases c.principal with
  | none => exact .inl rfl
  | some p =>
    dsimp only
    cases p.scope with
    | none => exact .inl rfl
    | some scope =>
      dsimp only
      split
      · exact .inl rfl
      · exact .inr ⟨p, _, _, rfl, rfl⟩

theorem allow_timed (h : Timed buckets c.now) : Timed (allow buckets c).2 c.now := by
  rcases allow_cases buckets c with hsame | ⟨p, r, b, _, htake⟩
  · rw [hsame]
    exact h
  · rw [htake]
    exact take_timed h

theorem Keeps.allow (hby : c.by kid = false) (h : Keeps burst kid left t c.now buckets) :
    Keeps burst kid left t c.now (allow buckets c).2 := by
  rcases allow_cases buckets c with hsame | ⟨p, r, b, hp, htake⟩
  · rw [hsame]
    exact h
  · rw [htake]
    exact h.other c.order b r (not_by_of_ne hp hby)

/-- The visits of a key to its bucket along a run. -/
def visits (kid : String) : StrMap Bucket → List Attempt → List (Take Rat)
  | _, [] => []
  | buckets, c :: cs =>
    (if c.by kid then
      [⟨c.now, (allow buckets c).1.ok,
        (((allow buckets c).2.lookup kid).map Bucket.tokens).getD 0⟩] else []) ++
      visits kid (allow buckets c).2 cs

theorem admittedIn_attempts (x y : Rat) :
    admittedIn kid x y (attempts buckets cs) = takenIn x y (visits kid buckets cs) := by
  induction cs generalizing buckets with
  | nil => rfl
  | cons c cs ih =>
    rw [attempts, visits]
    unfold admittedIn takenIn at ih ⊢
    rw [filter_append, length_append, ← ih, filter_cons]
    cases hby : c.by kid with
    | false => simp
    | true =>
      by_cases hin : (allow buckets c).1.ok && decide (x ≤ c.now) &&
          decide ((c.now : Rat) ≤ y)
      · simp [hin, Nat.add_comm]
      · simp [hin]

/-- The clock never goes back along the calls, from `now` on. -/
def Clocked (now : Int) : List Attempt → Prop
  | [] => True
  | c :: cs => now ≤ c.now ∧ Clocked c.now cs

theorem leaves_add_cost (rps tokens : Rat) (time : Rat) :
    leaves tokens + Take.cost ⟨time, (verdict rps tokens).ok, leaves tokens⟩ = tokens := by
  unfold leaves verdict Take.cost
  by_cases h : tokens < 1 <;> simp [h]

theorem leaves_nonneg {tokens : Rat} (h : 0 ≤ tokens) : 0 ≤ leaves tokens := by
  unfold leaves
  split
  · exact h
  · rename_i hone
    linarith [not_lt.mp hone]

theorem leaves_le (tokens : Rat) : leaves tokens ≤ tokens := by
  unfold leaves
  split <;> linarith

theorem clocked_of_pairwise (h : cs.Pairwise fun c d => c.now ≤ d.now)
    (hfirst : ∀ d ∈ cs, now ≤ d.now) : Clocked now cs := by
  induction cs generalizing now with
  | nil => trivial
  | cons c cs ih =>
    obtain ⟨hc, hrest⟩ := pairwise_cons.mp h
    exact ⟨hfirst c mem_cons_self, ih hrest hc⟩

theorem exists_start (h : cs.Pairwise fun c d => c.now ≤ d.now) : ∃ now, ∀ d ∈ cs, now ≤ d.now := by
  cases cs with
  | nil => exact ⟨0, by simp⟩
  | cons c cs =>
    refine ⟨c.now, fun d hd => ?_⟩
    rcases mem_cons.mp hd with rfl | hd
    · exact le_refl _
    · exact rel_of_pairwise_cons h hd

theorem timed_empty (now : Int) : Timed ∅ now := by
  intro kid b hb
  cases hb

theorem timed_after (h : Timed buckets now) (hclock : Clocked now cs) (hle : ∀ d ∈ cs, d.now ≤ now')
    (hnow : now ≤ now') : Timed (after buckets cs) now' := by
  induction cs generalizing buckets now with
  | nil => exact h.later hnow
  | cons c cs ih =>
    have hc := hle c mem_cons_self
    exact ih (allow_timed (h.later hclock.1)) hclock.2 (fun d hd => hle d (mem_cons_of_mem c hd)) hc

/-- The calls of other keys leave a bucket alone, or drop it after an hour. -/
theorem Keeps.after (h : Keeps burst kid left t now buckets) (hclock : Clocked now cs)
    (hby : ∀ d ∈ cs, d.by kid = false) (hle : ∀ d ∈ cs, d.now ≤ now') (hnow : now ≤ now') :
    Keeps burst kid left t now' (after buckets cs) := by
  induction cs generalizing buckets now with
  | nil => exact h.later hnow
  | cons c cs ih =>
    have hc := hby c mem_cons_self
    exact ih ((h.later hclock.1).allow hc) hclock.2
      (fun d hd => hby d (mem_cons_of_mem c hd))
      (fun d hd => hle d (mem_cons_of_mem c hd)) (hle c mem_cons_self)

section Visits

variable (hrps : 0 < rps)
include hrps

/-- One visit of a key that has called before leaves what it has not spent. -/
theorem visit_keeps (hby : c.by kid = true) (hlim : c.limited rps b) (htimed : Timed buckets c.now)
    (h : Keeps (burstOf b) kid left t c.now buckets) :
    Keeps (burstOf b) kid (leaves (found buckets kid rps (burstOf b) c.now)) c.now c.now
      (allow buckets c).2 := by
  obtain ⟨hnonneg, hle⟩ := found_le hrps h
  rw [allow_by hrps hby hlim]
  exact ⟨Or.inl (take_self kid rps (burstOf b) c.order htimed).2, leaves_nonneg hnonneg,
    (leaves_le _).trans hle, le_refl _⟩

/-- What a visit leaves follows what it has found. -/
theorem visit_step (hrefill : burstOf b ≤ rps * 3600) (hby : c.by kid = true)
    (hlim : c.limited rps b) (htimed : Timed buckets c.now)
    (h : Keeps (burstOf b) kid left t c.now buckets) :
    ∃ left', (((allow buckets c).2.lookup kid).map Bucket.tokens).getD 0 = left' ∧
      Keeps (burstOf b) kid left' c.now c.now (allow buckets c).2 ∧
      Take.Within (burstOf b) (⟨c.now, (allow buckets c).1.ok, left'⟩ : Take Rat) ∧
      left' + Take.cost ⟨(c.now : Rat), (allow buckets c).1.ok, left'⟩ ≤
        left + rps / second * (c.now - t) := by
  have hkeeps := visit_keeps hrps hby hlim htimed h
  rw [allow_by hrps hby hlim] at hkeeps ⊢
  obtain ⟨hverdict, hlookup⟩ := take_self kid rps (burstOf b) c.order htimed
  have hsum := leaves_add_cost rps (found buckets kid rps (burstOf b) c.now) c.now
  refine ⟨_, by simp [hlookup], hkeeps, ?_, ?_⟩
  · rw [hverdict]
    exact ⟨hkeeps.nonneg, by rw [hsum]; exact (found_le hrps h).2⟩
  · rw [hverdict, hsum]
    exact found_le_gain hrps hrefill h

/-- The visits of a key after its last call keep to its rate. -/
theorem visits_chain (hrefill : burstOf b ≤ rps * 3600) (taken : Bool) (hclock : Clocked now cs)
    (htimed : Timed buckets now) (hlim : ∀ c ∈ cs, c.by kid = true → c.limited rps b)
    (h : Keeps (burstOf b) kid left t now buckets) :
    ((⟨t, taken, left⟩ : Take Rat) :: visits kid buckets cs).IsChain (Take.Before (rps / second)) ∧
      ∀ a ∈ visits kid buckets cs, a.Within (burstOf b) := by
  induction cs generalizing buckets left t now taken with
  | nil => exact ⟨isChain_singleton _, by simp [visits]⟩
  | cons c cs ih =>
    obtain ⟨hle, hclock⟩ := hclock
    have htimed' := htimed.later hle
    have hrest : ∀ c ∈ cs, c.by kid = true → c.limited rps b :=
      fun d hd => hlim d (mem_cons_of_mem c hd)
    have hnext := allow_timed htimed'
    unfold visits
    cases hby : c.by kid with
    | false =>
      simp only [Bool.false_eq_true, if_false, nil_append]
      exact ih taken hclock hnext hrest ((h.later hle).allow hby)
    | true =>
      obtain ⟨left', hleft', hkeeps, hwithin, hgain⟩ := visit_step hrps hrefill hby
        (hlim c mem_cons_self hby) htimed' (h.later hle)
      simp only [if_true, singleton_append, hleft']
      obtain ⟨hchain, hall⟩ := ih (allow buckets c).1.ok hclock hnext hrest hkeeps
      refine ⟨isChain_cons_cons.mpr ⟨⟨?_, hgain⟩, hchain⟩, ?_⟩
      · have hpast : (t : Rat) ≤ c.now := by exact_mod_cast (h.later hle).past
        exact hpast
      intro a ha
      rcases mem_cons.mp ha with rfl | ha
      · exact hwithin
      · exact hall a ha

/-- The visits of a key keep to its rate and its burst. -/
theorem visits_good (hrefill : burstOf b ≤ rps * 3600) (hclock : Clocked now cs)
    (htimed : Timed buckets now) (hlim : ∀ c ∈ cs, c.by kid = true → c.limited rps b)
    (hnone : buckets.lookup kid = none) :
    (visits kid buckets cs).IsChain (Take.Before (rps / second)) ∧
      ∀ a ∈ visits kid buckets cs, a.Within (burstOf b) := by
  obtain ⟨hchain, hall⟩ := visits_chain hrps hrefill false hclock htimed hlim (Keeps.first hnone)
  exact ⟨(isChain_cons.mp hchain).2, hall⟩

theorem keeps_after (hclock : Clocked now cs) (htimed : Timed buckets now)
    (hlim : ∀ c ∈ cs, c.by kid = true → c.limited rps b) (hle : ∀ d ∈ cs, d.now ≤ now')
    (hnow : now ≤ now') (h : Keeps (burstOf b) kid left t now buckets) :
    ∃ left' t', Keeps (burstOf b) kid left' t' now' (after buckets cs) := by
  induction cs generalizing buckets left t now with
  | nil => exact ⟨left, t, h.later hnow⟩
  | cons c cs ih =>
    obtain ⟨hfirst, hclock⟩ := hclock
    have htimed' := htimed.later hfirst
    have hstep : ∃ left' t', Keeps (burstOf b) kid left' t' c.now (allow buckets c).2 := by
      cases hby : c.by kid with
      | false => exact ⟨left, t, (h.later hfirst).allow hby⟩
      | true =>
        exact ⟨_, c.now, visit_keeps hrps hby (hlim c mem_cons_self hby) htimed' (h.later hfirst)⟩
    obtain ⟨left', t', hkeeps⟩ := hstep
    exact ih hclock (allow_timed htimed') (fun d hd => hlim d (mem_cons_of_mem c hd))
      (fun d hd => hle d (mem_cons_of_mem c hd)) (hle c mem_cons_self) hkeeps

/-- A call that was refused is admitted when the key has waited as it was told. -/
theorem retry_admitted {d : Attempt} {mid : List Attempt} (hlong : second ≤ rps * maxDuration)
    (htimed : Timed buckets c.now) (h : Keeps (burstOf b) kid left t c.now buckets)
    (hclock : Clocked c.now mid) (hmid : ∀ m ∈ mid, m.by kid = false)
    (hle : ∀ m ∈ mid, m.now ≤ d.now) (hnow : c.now ≤ d.now)
    (hbyc : c.by kid = true) (hlimc : c.limited rps b) (hbyd : d.by kid = true)
    (hlimd : d.limited rps b) (hrefused : (allow buckets c).1.ok = false)
    (hwait : c.now + (allow buckets c).1.retryAfter ≤ d.now) :
    (allow (after (allow buckets c).2 mid) d).1.ok = true := by
  have hafter := (visit_keeps hrps hbyc hlimc htimed h).after hclock hmid hle hnow
  have hdtimed := timed_after (allow_timed htimed) hclock hle hnow
  rw [allow_by hrps hbyd hlimd, (take_self kid rps (burstOf b) d.order hdtimed).1]
  rw [allow_by hrps hbyc hlimc, (take_self kid rps (burstOf b) c.order htimed).1] at hrefused hwait
  generalize found buckets kid rps (burstOf b) c.now = f at hrefused hwait hafter
  have hlow : f < 1 := by
    by_contra hnot
    simp [verdict, hnot] at hrefused
  -- what the refused call has found is what it has left
  rw [show leaves f = f from if_pos hlow] at hafter
  have hfound := one_le_found hrps hlong (one_le_burstOf b) hlow hafter
    (by simpa [verdict, hlow] using hwait)
  simp [verdict, not_lt.mpr hfound]

end Visits

theorem after_append (xs ys : List Attempt) :
    after buckets (xs ++ ys) = after (after buckets xs) ys := foldl_append

/-- Where a bucket fills within the time after which it may be forgotten, a key is admitted no more
often than its burst and its rate allow, whenever one looks. Where a token comes within the longest
duration, a call that was refused is admitted when it comes again after the wait. -/
theorem call_rates_are_enforced (kid : String) (rps : Rat) (b : Int) (hrps : 0 < rps)
    (calls : List Attempt) (hclock : calls.Pairwise fun c d => c.now ≤ d.now)
    (hlim : ∀ c ∈ calls, c.by kid = true → c.limited rps b) :
    (max (b : Rat) 1 ≤ rps * 3600 → ∀ x w : Rat, 0 ≤ w →
      (admittedIn kid x (x + w) (attempts ∅ calls) : Rat) ≤ max (b : Rat) 1 + rps * (w / second)) ∧
    (second ≤ rps * maxDuration → ∀ pre c mid d post, calls = pre ++ c :: (mid ++ d :: post) →
      c.by kid = true → (allow (after ∅ pre) c).1.ok = false →
      (∀ m ∈ mid, m.by kid = false) → d.by kid = true →
      c.now + (allow (after ∅ pre) c).1.retryAfter ≤ d.now →
      (allow (after ∅ (pre ++ c :: mid)) d).1.ok = true) := by
  rw [← burstOf_eq_max]
  obtain ⟨now, hstart⟩ := exists_start hclock
  constructor
  · intro hrefill x w hw
    obtain ⟨hchain, hall⟩ := visits_good hrps hrefill (clocked_of_pairwise hclock hstart)
      (timed_empty now) hlim (lookup_empty kid)
    have hcap : 0 ≤ burstOf b := zero_le_one.trans (one_le_burstOf b)
    have hbound := takenIn_le hchain hall (div_nonneg hrps.le second_pos.le) hcap
      (le_add_of_nonneg_right hw : x ≤ x + w)
    rw [admittedIn_attempts]
    calc (takenIn x (x + w) (visits kid ∅ calls) : Rat)
        ≤ burstOf b + rps / second * (x + w - x) := hbound
      _ = burstOf b + rps * (w / second) := by ring
  · rintro hlong pre c mid d post rfl hbyc hrefused hmid hbyd hwait
    obtain ⟨hpre, hrest, hcross⟩ := pairwise_append.mp hclock
    obtain ⟨hc, hrest⟩ := pairwise_cons.mp hrest
    obtain ⟨hmidclock, _, hmidd⟩ := pairwise_append.mp hrest
    have hprec : ∀ m ∈ pre, m.now ≤ c.now := fun m hm => hcross m hm c mem_cons_self
    have hpreclock := clocked_of_pairwise hpre fun m hm => hstart m (by simp [hm])
    have hnow : now ≤ c.now := hstart c (by simp)
    have hcd : c.now ≤ d.now := hc d (by simp)
    obtain ⟨left, t, hkeeps⟩ := keeps_after hrps hpreclock (timed_empty now)
      (fun m hm => hlim m (by simp [hm])) hprec hnow (Keeps.first (lookup_empty kid))
    rw [after_append]
    exact retry_admitted hrps hlong (timed_after (timed_empty now) hpreclock hprec hnow) hkeeps
      (clocked_of_pairwise hmidclock fun m hm => hc m (by simp [hm])) hmid
      (fun m hm => hmidd m hm d mem_cons_self) hcd hbyc (hlim c (by simp) hbyc) hbyd
      (hlim d (by simp) hbyd) hrefused hwait

/-- A call by a key with this rate and this burst. -/
def attempt (kid : String) (rps : Rat) (burst now : Int) : Attempt where
  principal := some {
    kid := kid, name := kid, cls := .agent, role := .viewer, epoch := 0,
    scope := some {
      role := .viewer, clusters := ⟨["*"], ∅, []⟩, tools := ⟨["*"], []⟩,
      limits := ⟨0, 0, 0, 0, 0, 0, rps, burst⟩ } }
  now := now
  order := ascending

theorem attempt_limited (kid : String) (rps : Rat) (burst now : Int) :
    (attempt kid rps burst now).limited rps burst := ⟨_, _, rfl, rfl, rfl, rfl⟩

/-- A key with one call in two seconds is refused after one second, waits for the second that it
is told, and is admitted. -/
theorem call_rates_are_enforced_at_half_a_call : (admittedIn "a" 1 (1 + 3 * second)
      (attempts ∅ [attempt "a" (1 / 2) 1 1, attempt "a" (1 / 2) 1 (1 + second),
        attempt "b" 1 1 (1 + second), attempt "a" (1 / 2) 1 (1 + 2 * second)]) : Rat) ≤
      max (1 : Int) 1 + 1 / 2 * (3 * second / second) ∧
    (allow (after ∅ [attempt "a" (1 / 2) 1 1, attempt "a" (1 / 2) 1 (1 + second),
      attempt "b" 1 1 (1 + second)]) (attempt "a" (1 / 2) 1 (1 + 2 * second))).1.ok = true := by
  obtain ⟨hwindow, hretry⟩ := call_rates_are_enforced "a" (1 / 2) 1 (by norm_num)
    [attempt "a" (1 / 2) 1 1, attempt "a" (1 / 2) 1 (1 + second), attempt "b" 1 1 (1 + second),
      attempt "a" (1 / 2) 1 (1 + 2 * second)] (by decide +kernel) (by
      intro c hc hby
      simp only [mem_cons, not_mem_nil, or_false] at hc
      rcases hc with rfl | rfl | rfl | rfl
      · exact attempt_limited _ _ _ _
      · exact attempt_limited _ _ _ _
      · exact absurd hby (by decide)
      · exact attempt_limited _ _ _ _)
  exact ⟨hwindow (by norm_num) 1 (3 * second) (by norm_num [second]),
    hretry (by norm_num [second, maxDuration]) [attempt "a" (1 / 2) 1 1]
      (attempt "a" (1 / 2) 1 (1 + second)) [attempt "b" 1 1 (1 + second)]
      (attempt "a" (1 / 2) 1 (1 + 2 * second)) [] rfl (by decide) (by decide +kernel)
      (by decide) (by decide) (by decide +kernel)⟩

/-- A key with one call in 10000 seconds is admitted twice within one hour and a nanosecond: the
first call of another key drops its bucket, which is a third full. -/
theorem a_forgotten_bucket_is_full_again :
    ∃ calls : List Attempt, (calls.Pairwise fun c d => c.now ≤ d.now) ∧
      (∀ c ∈ calls, c.by "a" = true → c.limited (1 / 10000) 1) ∧
      ¬ (admittedIn "a" 1 (1 + (3600 * second + 1)) (attempts ∅ calls) : Rat) ≤
        max (1 : Int) 1 + 1 / 10000 * ((3600 * second + 1) / second) := by
  refine ⟨[attempt "a" (1 / 10000) 1 1, attempt "b" 1 1 (1 + 3600 * second + 1),
    attempt "a" (1 / 10000) 1 (1 + 3600 * second + 1)], by decide +kernel, ?_, by decide +kernel⟩
  intro c hc hby
  simp only [mem_cons, not_mem_nil, or_false] at hc
  rcases hc with rfl | rfl | rfl
  · exact attempt_limited _ _ _ _
  · exact absurd hby (by decide)
  · exact attempt_limited _ _ _ _

end prom_fleet.rate_limiter
