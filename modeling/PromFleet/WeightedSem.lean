-- A weighted semaphore with a queue. A reservation that fits goes through at once if
-- nobody waits, and whoever waits is served from the head of the queue, as long as the
-- head fits.
import Mathlib.Algebra.BigOperators.Group.Finset.Basic
import Mathlib.Algebra.Order.Ring.Int

namespace prom_fleet.weighted

open List

variable {ι : Type}

/-! ## The semaphore -/

/-- A reservation that waits. -/
structure Waiter (ι : Type) where
  owner : ι
  n : Int
  deriving DecidableEq

/-- The state: what is free, who waits, and whose wait has ended with a grant. Both lists
are in the order in which that happened. -/
structure Sem (ι : Type) where
  capacity : Int
  free : Int
  waiters : List (Waiter ι)
  ready : List ι

inductive Reservation where
  | granted
  | queued
  deriving DecidableEq

/-- The loop that serves the head of the queue while it fits. -/
def grantFrom (free : Int) (ready : List ι) :
    List (Waiter ι) → Int × List ι × List (Waiter ι)
  | [] => (free, ready, [])
  | w :: ws =>
    if w.n ≤ free then grantFrom (free - w.n) (ready ++ [w.owner]) ws else (free, ready, w :: ws)

namespace Sem

def grant (s : Sem ι) : Sem ι :=
  let r := grantFrom s.free s.ready s.waiters
  { s with free := r.1, ready := r.2.1, waiters := r.2.2 }

def reserve (i : ι) (n : Int) (s : Sem ι) : Reservation × Sem ι :=
  if s.waiters.isEmpty ∧ n ≤ s.free then (.granted, { s with free := s.free - n })
  else (.queued, { s with waiters := s.waiters ++ [⟨i, n⟩] })

/-- The queue without the waiter of `i`. -/
def leave [DecidableEq ι] (i : ι) (s : Sem ι) : Sem ι :=
  { s with waiters := s.waiters.eraseP fun w => w.owner = i }

/-- A waiter leaves the queue, if it is still there. -/
def withdraw [DecidableEq ι] (i : ι) (s : Sem ι) : Bool × Sem ι :=
  if s.waiters.any fun w => w.owner = i then (true, (s.leave i).grant) else (false, s)

def release (n : Int) (s : Sem ι) : Sem ι := grant { s with free := s.free + n }

/-! ## Balance -/

/-- The head of the queue does not fit. -/
def HeadBlocked (s : Sem ι) : Prop := ∀ w ∈ s.waiters.head?, s.free < w.n

/-- What is free and what is held make up the capacity, and who waits holds nothing. -/
structure Balanced (weight : ι → Int) (holding : Finset ι) (s : Sem ι) : Prop where
  free_nonneg : 0 ≤ s.free
  total : s.free + ∑ i ∈ holding, weight i = s.capacity
  waits : ∀ w ∈ s.waiters, w.n = weight w.owner ∧ w.owner ∉ holding
  nodup : (s.waiters.map Waiter.owner).Nodup

end Sem

/-- The loop serves a first part of the queue and stops at a head that does not fit. -/
theorem grantFrom_spec (free : Int) (ready : List ι) (ws : List (Waiter ι)) :
    ∃ front, ws = front ++ (grantFrom free ready ws).2.2 ∧
      (grantFrom free ready ws).2.1 = ready ++ front.map Waiter.owner ∧
      (grantFrom free ready ws).1 = free - (front.map Waiter.n).sum ∧
      (0 ≤ free → 0 ≤ (grantFrom free ready ws).1) ∧
      ∀ w ∈ (grantFrom free ready ws).2.2.head?, (grantFrom free ready ws).1 < w.n := by
  induction ws generalizing free ready with
  | nil => exact ⟨[], by simp [grantFrom]⟩
  | cons w ws ih =>
    unfold grantFrom
    split
    · rename_i hfits
      obtain ⟨front, hws, hready, hfree, hpos, hhead⟩ := ih (free - w.n) (ready ++ [w.owner])
      refine ⟨w :: front, ?_, ?_, ?_, fun _ => hpos (by omega), hhead⟩
      · rw [cons_append, ← hws]
      · rw [hready, append_assoc]
        rfl
      · rw [hfree, map_cons, sum_cons]
        omega
    · rename_i hfits
      refine ⟨[], rfl, by simp, by simp, id, fun x hx => ?_⟩
      cases hx
      exact not_le.mp hfits

namespace Sem

variable [DecidableEq ι] {weight : ι → Int} {holding : Finset ι} {s : Sem ι} {i : ι}

/-- Serving the queue moves its first part to those who hold. -/
theorem Balanced.grant (h : Balanced weight holding s) :
    ∃ front, s.waiters = front ++ s.grant.waiters ∧
      s.grant.ready = s.ready ++ front.map Waiter.owner ∧
      Balanced weight (holding ∪ (front.map Waiter.owner).toFinset) s.grant ∧
      s.grant.HeadBlocked := by
  obtain ⟨front, hws, hready, hfree, hpos, hhead⟩ := grantFrom_spec s.free s.ready s.waiters
  have hnodup := h.nodup
  rw [hws, map_append, nodup_append] at hnodup
  obtain ⟨hfront, hback, hapart⟩ := hnodup
  have hin : ∀ w ∈ front, w ∈ s.waiters := fun w hw => hws ▸ mem_append_left _ hw
  have hdisjoint : Disjoint holding (front.map Waiter.owner).toFinset := by
    rw [Finset.disjoint_right]
    intro i hi
    obtain ⟨w, hw, rfl⟩ := mem_map.mp (mem_toFinset.mp hi)
    exact (h.waits w (hin w hw)).2
  have hsum : ∑ i ∈ (front.map Waiter.owner).toFinset, weight i = (front.map Waiter.n).sum := by
    rw [sum_toFinset weight hfront, map_map]
    congr 1
    exact map_congr_left fun w hw => ((h.waits w (hin w hw)).1).symm
  refine ⟨front, hws, hready, ⟨hpos h.free_nonneg, ?_, ?_, hback⟩, hhead⟩
  · have htotal := h.total
    rw [Finset.sum_union hdisjoint, hsum]
    change (grantFrom s.free s.ready s.waiters).1 + _ = s.capacity
    rw [hfree]
    omega
  · intro w hw
    obtain ⟨hn, hout⟩ := h.waits w (hws ▸ mem_append_right _ hw)
    refine ⟨hn, ?_⟩
    rw [Finset.mem_union, mem_toFinset, not_or]
    refine ⟨hout, fun hmem => ?_⟩
    exact hapart _ hmem _ (mem_map_of_mem hw) rfl

omit [DecidableEq ι] in
/-- Whoever waits for what fits into the capacity waits for somebody who holds a part of it. -/
theorem Balanced.exists_holder (h : Balanced weight holding s) (hblocked : s.HeadBlocked)
    (hfits : ∀ i, weight i ≤ s.capacity) {w : Waiter ι} (hw : w ∈ s.waiters) :
    ∃ i ∈ holding, i ≠ w.owner := by
  obtain ⟨v, ws, hqueue⟩ := exists_cons_of_ne_nil (ne_nil_of_mem hw)
  have hhead := hblocked v (by simp [hqueue])
  rw [(h.waits v (by simp [hqueue])).1] at hhead
  have hsum : ∑ i ∈ holding, weight i ≠ 0 := by
    have htotal := h.total
    have hroom := hfits v.owner
    omega
  obtain ⟨i, hi, -⟩ := Finset.exists_ne_zero_of_sum_ne_zero hsum
  refine ⟨i, hi, ?_⟩
  rintro rfl
  exact (h.waits w hw).2 hi

theorem Balanced.reserve_granted (h : Balanced weight holding s) (hi : i ∉ holding)
    (hwaits : s.waiters = []) (hfits : weight i ≤ s.free) :
    Balanced weight (insert i holding) { s with free := s.free - weight i } where
  free_nonneg := by simpa using hfits
  total := by
    have htotal := h.total
    rw [Finset.sum_insert hi]
    dsimp only
    omega
  waits w hw := by
    rw [hwaits] at hw
    cases hw
  nodup := h.nodup

omit [DecidableEq ι] in
theorem Balanced.enqueue (h : Balanced weight holding s) (hi : i ∉ holding)
    (hout : i ∉ s.waiters.map Waiter.owner) :
    Balanced weight holding { s with waiters := s.waiters ++ [⟨i, weight i⟩] } where
  free_nonneg := h.free_nonneg
  total := h.total
  waits w hw := by
    rcases mem_append.mp hw with hw | hw
    · exact h.waits w hw
    · rw [mem_singleton.mp hw]
      exact ⟨rfl, hi⟩
  nodup := by
    rw [map_append, nodup_append]
    refine ⟨h.nodup, nodup_singleton _, ?_⟩
    rintro a ha b hb rfl
    rw [mem_singleton.mp hb] at ha
    exact hout ha

omit [DecidableEq ι] in
theorem HeadBlocked.enqueue {n : Int} (h : s.HeadBlocked)
    (hwait : ¬(s.waiters.isEmpty ∧ n ≤ s.free)) :
    HeadBlocked { s with waiters := s.waiters ++ [⟨i, n⟩] } := by
  intro w hw
  cases hws : s.waiters with
  | nil =>
    rw [hws] at hw hwait
    cases hw
    simpa using hwait
  | cons x xs =>
    rw [hws] at hw
    cases hw
    exact h _ (by rw [hws]; rfl)

theorem Balanced.leave (h : Balanced weight holding s) : Balanced weight holding (s.leave i) where
  free_nonneg := h.free_nonneg
  total := h.total
  waits w hw := h.waits w (mem_of_mem_eraseP hw)
  nodup := h.nodup.sublist ((eraseP_sublist).map _)

theorem Balanced.give_back (h : Balanced weight holding s) (hi : i ∈ holding)
    (hpos : 0 ≤ weight i) :
    Balanced weight (holding.erase i) { s with free := s.free + weight i } where
  free_nonneg := Int.add_nonneg h.free_nonneg hpos
  total := by
    have htotal := h.total
    rw [← Finset.add_sum_erase _ _ hi] at htotal
    dsimp only
    omega
  waits w hw := ⟨(h.waits w hw).1, fun hmem => (h.waits w hw).2 (Finset.mem_of_mem_erase hmem)⟩
  nodup := h.nodup

theorem owners_leave (h : (s.waiters.map Waiter.owner).Nodup) :
    (s.leave i).waiters.map Waiter.owner = (s.waiters.map Waiter.owner).filter fun j => j ≠ i := by
  unfold leave
  dsimp only
  generalize s.waiters = ws at h
  induction ws with
  | nil => rfl
  | cons w ws ih =>
    rw [map_cons, nodup_cons] at h
    by_cases hw : w.owner = i
    · have hout : ∀ j ∈ ws.map Waiter.owner, j ≠ i := by
        rintro j hj rfl
        exact h.1 (hw ▸ hj)
      rw [eraseP_cons_of_pos (by simpa using hw), map_cons, filter_cons_of_neg (by simpa using hw)]
      exact (filter_eq_self.mpr fun j hj => decide_eq_true (hout j hj)).symm
    · simp [hw, ih h.2]

end Sem

end prom_fleet.weighted
