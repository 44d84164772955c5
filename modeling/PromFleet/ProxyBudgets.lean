-- The budgets of the hub over whole runs: in every interleaving of calls, what is free and
-- what the calls hold make up the byte budget, the queue is served in order, and a cluster
-- has as many slots in use as there are calls between their acquire and their return.
import PromFleet.Proxy
import Mathlib.Data.Fintype.Basic

namespace prom_fleet.promproxy

open interleave List Finmap Function fleet weighted

variable {ι : Type}

/-! ## What a call has done -/

/-- What a call has done with the budgets: it took its slot and gave it back, its bytes were
reserved at once or it joined the queue, it left the queue, it released its bytes. -/
structure Marks where
  took : Bool
  gave : Bool
  reserved : Bool
  joined : Bool
  withdrew : Bool
  released : Bool
  deriving DecidableEq

def Marks.fresh : Marks := ⟨false, false, false, false, false, false⟩

/-- What an operation adds. -/
def Marks.add (m : Marks) : Event Ans Env (Hub ι) → Marks
  | ⟨.acquireSlot _ _, _, a, _, _⟩ => { m with took := m.took || a }
  | ⟨.releaseSlot _, _, _, _, _⟩ => { m with gave := true }
  | ⟨.reserve _, _, .granted, _, _⟩ => { m with reserved := true }
  | ⟨.reserve _, _, .queued, _, _⟩ => { m with joined := true }
  | ⟨.withdraw, _, a, _, _⟩ => { m with withdrew := m.withdrew || a }
  | ⟨.release _, _, _, _, _⟩ => { m with released := true }
  | _ => m

def joins : Event Ans Env (Hub ι) → Bool
  | ⟨.reserve _, _, .queued, _, _⟩ => true
  | _ => false

abbrev Log (ι : Type) := List (ι × Event Ans Env (Hub ι))

variable (log : Log ι)

/-- The calls that joined the queue, in the order of their arrival. -/
def arrivals : List ι := (log.filter fun x => joins x.2).map Prod.fst

section

variable [DecidableEq ι]

def marksOf (i : ι) : Marks := (own i log).foldl Marks.add Marks.fresh

theorem marksOf_append (i : ι) (ev : Event Ans Env (Hub ι)) :
    marksOf (log ++ [(i, ev)]) = update (marksOf log) i ((marksOf log i).add ev) := by
  funext j
  by_cases hj : j = i
  · subst hj
    rw [update_self, marksOf, own_append_self, foldl_append]
    rfl
  · rw [update_of_ne hj, marksOf, own_append_of_ne (Ne.symm hj)]
    rfl

omit [DecidableEq ι] in
theorem arrivals_append (i : ι) (ev : Event Ans Env (Hub ι)) :
    arrivals (log ++ [(i, ev)]) = arrivals log ++ if joins ev then [i] else [] := by
  unfold arrivals
  rw [filter_append, map_append]
  cases h : joins ev <;> simp [h]

/-! ## The invariants -/

variable [Fintype ι]

/-- The call has a reservation: it was made at once or its waiter was granted, and the bytes
are not released. -/
def HoldsBytes (b : Sem ι) (m : ι → Marks) (i : ι) : Prop :=
  ((m i).reserved = true ∨ i ∈ b.ready) ∧ (m i).released = false

instance (b : Sem ι) (m : ι → Marks) : DecidablePred (HoldsBytes b m) := fun i => by
  unfold HoldsBytes
  infer_instance

def holders (b : Sem ι) (m : ι → Marks) : Finset ι := Finset.univ.filter (HoldsBytes b m)

@[simp]
theorem mem_holders {b : Sem ι} {m : ι → Marks} {i : ι} : i ∈ holders b m ↔
    ((m i).reserved = true ∨ i ∈ b.ready) ∧ (m i).released = false := by
  simp [holders, HoldsBytes]

/-- The byte semaphore beside the calls. -/
structure BytesInv (weight : ι → Int) (b : Sem ι) (m : ι → Marks) (arr : List ι) : Prop where
  balanced : b.Balanced weight (holders b m)
  queue : arr.filter (fun i => !(m i).withdrew) = b.ready ++ b.waiters.map Waiter.owner
  nodup : arr.Nodup
  mem_arr : ∀ i, i ∈ arr ↔ (m i).joined = true
  waiting : ∀ w ∈ b.waiters, (m w.owner).released = false

def inSlot (cluster : ι → String) (m : ι → Marks) (id : String) : Finset ι :=
  Finset.univ.filter fun i => cluster i = id ∧ (m i).took = true ∧ (m i).gave = false

/-- The slots beside the calls. -/
structure SlotsInv (cluster : ι → String) (most : Int) (inflight : StrMap Int) (m : ι → Marks) :
    Prop where
  count : ∀ id, (inflight.lookup id).getD 0 = (inSlot cluster m id).card
  pos : ∀ id n, inflight.lookup id = some n → 0 < n
  le : ∀ id, (inflight.lookup id).getD 0 ≤ most

/-! ## The bytes -/

variable {weight : ι → Int} {b : Sem ι} {m : ι → Marks} {arr : List ι} {i : ι}

theorem BytesInv.mem_queue (h : BytesInv weight b m arr) :
    i ∈ b.ready ++ b.waiters.map Waiter.owner ↔ (m i).joined = true ∧ (m i).withdrew = false := by
  rw [← h.queue, mem_filter, h.mem_arr]
  simp

theorem BytesInv.ready_of_not_waiting (h : BytesInv weight b m arr) (hjoined : (m i).joined = true)
    (hstays : (m i).withdrew = false) (hout : i ∉ b.waiters.map Waiter.owner) : i ∈ b.ready := by
  rcases mem_append.mp (h.mem_queue.mpr ⟨hjoined, hstays⟩) with hin | hin
  · exact hin
  · exact absurd hin hout

/-- What the byte semaphore is about. -/
def Marks.forBytes (v : Marks) : Bool × Bool × Bool × Bool :=
  (v.reserved, v.joined, v.withdrew, v.released)

/-- What the slots are about. -/
def Marks.forSlots (v : Marks) : Bool × Bool := (v.took, v.gave)

variable {v w : Marks} {β : Type}

omit [Fintype ι] in
theorem eq_update (f : Marks → β) (hv : m i = v) (hw : f w = f v) (j : ι) :
    f (update m i w j) = f (m j) := by
  by_cases hj : j = i
  · subst hj
    rw [update_self, hw, hv]
  · rw [update_of_ne hj]

section Balance

variable (h : BytesInv weight b m arr)

include h

theorem BytesInv.congr (hv : m i = v)
    (hw : w.forBytes = v.forBytes) : BytesInv weight b (update m i w) arr := by
  simp only [Marks.forBytes, Prod.mk.injEq] at hw
  obtain ⟨hres, hjoined, hwithdrew, hrel⟩ := hw
  have hholders : holders b (update m i w) = holders b m := by
    ext j
    simp only [mem_holders, eq_update _ hv hres, eq_update _ hv hrel]
  exact
    { balanced := hholders ▸ h.balanced
      queue := by simpa only [eq_update _ hv hwithdrew] using h.queue
      nodup := h.nodup
      mem_arr := fun j => by rw [eq_update _ hv hjoined, h.mem_arr]
      waiting := fun x hx => by rw [eq_update _ hv hrel, h.waiting x hx] }

theorem BytesInv.grant :
    BytesInv weight b.grant m arr ∧ b.grant.HeadBlocked ∧ ∀ j ∈ b.ready, j ∈ b.grant.ready := by
  obtain ⟨front, hws, hready, hbalanced, hblocked⟩ := h.balanced.grant
  have hholders : holders b.grant m = holders b m ∪ (front.map Waiter.owner).toFinset := by
    ext j
    simp only [mem_holders, Finset.mem_union, mem_toFinset, hready, mem_append]
    constructor
    · rintro ⟨hres | hin | hfront, hrel⟩
      · exact .inl ⟨Or.inl hres, hrel⟩
      · exact .inl ⟨Or.inr hin, hrel⟩
      · exact .inr hfront
    · rintro (⟨hres | hin, hrel⟩ | hfront)
      · exact ⟨Or.inl hres, hrel⟩
      · exact ⟨Or.inr (Or.inl hin), hrel⟩
      · obtain ⟨w, hw, rfl⟩ := mem_map.mp hfront
        exact ⟨Or.inr (Or.inr hfront), h.waiting w (hws ▸ mem_append_left _ hw)⟩
  refine ⟨⟨hholders ▸ hbalanced, ?_, h.nodup, h.mem_arr, fun w hw => ?_⟩, hblocked,
    fun j hj => hready ▸ mem_append_left _ hj⟩
  · rw [h.queue, hready, hws, map_append, append_assoc]
  · exact h.waiting w (hws ▸ mem_append_right _ hw)

theorem BytesInv.not_holder (hv : m i = v)
    (hres : v.reserved = false) (hjoined : v.joined = false) :
    i ∉ holders b m ∧ i ∉ b.ready ∧ i ∉ b.waiters.map Waiter.owner := by
  have hout : i ∉ b.ready ++ b.waiters.map Waiter.owner := by
    rw [h.mem_queue, hv, hjoined]
    simp
  rw [mem_append, not_or] at hout
  refine ⟨?_, hout⟩
  simp [hv, hres, hout.1]

theorem BytesInv.reserve_granted (hv : m i = v)
    (hres : v.reserved = false) (hjoined : v.joined = false) (hrel : v.released = false)
    (hnow : b.waiters.isEmpty ∧ weight i ≤ b.free) :
    BytesInv weight { b with free := b.free - weight i }
      (update m i { v with reserved := true }) arr := by
  have hkeep (f : Marks → Bool) := eq_update (w := { v with reserved := true }) f hv
  obtain ⟨hholder, _⟩ := h.not_holder hv hres hjoined
  have hempty : b.waiters = [] := isEmpty_iff.mp hnow.1
  have hholders : holders { b with free := b.free - weight i }
      (update m i { v with reserved := true }) = insert i (holders b m) := by
    ext j
    by_cases hj : j = i <;> simp [hj, hrel]
  refine ⟨hholders ▸ h.balanced.reserve_granted hholder hempty hnow.2, ?_, h.nodup, fun j => ?_,
    fun x hx => ?_⟩
  · simpa only [hkeep Marks.withdrew rfl] using h.queue
  · rw [h.mem_arr, hkeep Marks.joined rfl]
  · rw [hkeep Marks.released rfl, h.waiting x hx]

theorem BytesInv.reserve_queued (hv : m i = v)
    (hres : v.reserved = false) (hjoined : v.joined = false) (hwithdrew : v.withdrew = false)
    (hrel : v.released = false) : BytesInv weight { b with waiters := b.waiters ++ [⟨i, weight i⟩] }
      (update m i { v with joined := true }) (arr ++ [i]) := by
  have hkeep (f : Marks → Bool) := eq_update (w := { v with joined := true }) f hv
  obtain ⟨hholder, _, hwaits⟩ := h.not_holder hv hres hjoined
  have hnew : i ∉ arr := by
    rw [h.mem_arr, hv, hjoined]
    decide
  have hholders : holders { b with waiters := b.waiters ++ [⟨i, weight i⟩] }
      (update m i { v with joined := true }) = holders b m := by
    ext j
    simp only [mem_holders, hkeep Marks.reserved rfl, hkeep Marks.released rfl]
  refine ⟨hholders ▸ h.balanced.enqueue hholder hwaits, ?_, ?_, fun j => ?_, fun x hx => ?_⟩
  · simp only [hkeep Marks.withdrew rfl]
    rw [filter_append, h.queue, map_append, append_assoc]
    simp [hv, hwithdrew]
  · rw [nodup_append]
    refine ⟨h.nodup, nodup_singleton i, ?_⟩
    rintro a ha c hc rfl
    exact hnew (List.mem_singleton.mp hc ▸ ha)
  · rw [List.mem_append, List.mem_singleton, h.mem_arr]
    by_cases hj : j = i <;> simp [hj]
  · rw [hkeep Marks.released rfl]
    rcases mem_append.mp hx with hx | hx
    · exact h.waiting x hx
    · rw [mem_singleton.mp hx, hv]
      exact hrel

theorem BytesInv.withdraw (hv : m i = v)
    (hin : i ∈ b.waiters.map Waiter.owner) :
    BytesInv weight (b.leave i) (update m i { v with withdrew := true }) arr := by
  have hkeep (f : Marks → Bool) := eq_update (w := { v with withdrew := true }) f hv
  have hready : i ∉ b.ready := by
    have hnodup := h.nodup.filter fun j => !(m j).withdrew
    rw [h.queue, nodup_append] at hnodup
    exact fun hmem => hnodup.2.2 i hmem i hin rfl
  have hholders : holders (b.leave i) (update m i { v with withdrew := true }) = holders b m := by
    ext j
    simp only [mem_holders, hkeep Marks.reserved rfl, hkeep Marks.released rfl]
    rfl
  refine ⟨hholders ▸ h.balanced.leave, ?_, h.nodup, fun j => ?_, fun x hx => ?_⟩
  · have hpart :
        arr.filter (fun j => !(update m i { v with withdrew := true } j).withdrew) =
          (arr.filter fun j => !(m j).withdrew).filter fun j => j ≠ i := by
      rw [filter_filter]
      refine filter_congr fun j _ => ?_
      by_cases hj : j = i <;> simp [hj]
    have hkeep : b.ready.filter (fun j => j ≠ i) = b.ready :=
      filter_eq_self.mpr fun j hj => decide_eq_true fun hji => hready (hji ▸ hj)
    rw [hpart, h.queue, filter_append, hkeep, Sem.owners_leave h.balanced.nodup]
    rfl
  · rw [h.mem_arr, hkeep Marks.joined rfl]
  · rw [hkeep Marks.released rfl]
    exact h.waiting x (mem_of_mem_eraseP hx)

theorem BytesInv.release (hv : m i = v) (hpos : 0 ≤ weight i)
    (hholds : HoldsBytes b m i) : BytesInv weight { b with free := b.free + weight i }
      (update m i { v with released := true }) arr := by
  have hkeep (f : Marks → Bool) := eq_update (w := { v with released := true }) f hv
  have hmem : i ∈ holders b m := mem_holders.mpr hholds
  have hholders : holders { b with free := b.free + weight i }
      (update m i { v with released := true }) = (holders b m).erase i := by
    ext j
    by_cases hj : j = i <;> simp [hj]
  refine ⟨hholders ▸ h.balanced.give_back hmem hpos, ?_, h.nodup, fun j => ?_, fun x hx => ?_⟩
  · simpa only [hkeep Marks.withdrew rfl] using h.queue
  · rw [h.mem_arr, hkeep Marks.joined rfl]
  have hother : x.owner ≠ i := by
    rintro rfl
    exact (h.balanced.waits x hx).2 hmem
  rw [update_of_ne hother, h.waiting x hx]

end Balance

/-! ## The slots -/

variable {cluster : ι → String} {most : Int} {inflight : StrMap Int}

variable (h : SlotsInv cluster most inflight m)

include h

theorem SlotsInv.congr (hv : m i = v)
    (hw : w.forSlots = v.forSlots) : SlotsInv cluster most inflight (update m i w) := by
  have hsame : ∀ id, inSlot cluster (update m i w) id = inSlot cluster m id := by
    intro id
    refine Finset.filter_congr fun j _ => ?_
    rw [eq_update _ hv (Prod.mk.inj hw).1, eq_update _ hv (Prod.mk.inj hw).2]
  exact ⟨fun id => by rw [hsame, h.count], h.pos, h.le⟩

/-- The slots of the other clusters are not touched, and the ones of this one are counted. -/
theorem SlotsInv.of_own {inflight' : StrMap Int}
    (hother : ∀ id, id ≠ cluster i → inflight'.lookup id = inflight.lookup id)
    (hcount : (inflight'.lookup (cluster i)).getD 0 =
      (inSlot cluster (update m i w) (cluster i)).card)
    (hpos : ∀ n, inflight'.lookup (cluster i) = some n → 0 < n)
    (hle : (inflight'.lookup (cluster i)).getD 0 ≤ most) :
    SlotsInv cluster most inflight' (update m i w) := by
  have hslots : ∀ id, id ≠ cluster i → inSlot cluster (update m i w) id = inSlot cluster m id := by
    intro id hid
    refine Finset.filter_congr fun j _ => ?_
    by_cases hj : j = i
    · subst hj
      simp [Ne.symm hid]
    · rw [update_of_ne hj]
  refine ⟨fun id => ?_, fun id n hn => ?_, fun id => ?_⟩ <;> by_cases hid : id = cluster i
  · rw [hid, hcount]
  · rw [hother id hid, hslots id hid, h.count]
  · exact hpos n (hid ▸ hn)
  · exact h.pos id n (hother id hid ▸ hn)
  · rw [hid]
    exact hle
  · rw [hother id hid]
    exact h.le id

theorem SlotsInv.take (hv : m i = v) (htook : v.took = false) (hgave : v.gave = false)
    (hroom : (inflight.lookup (cluster i)).getD 0 < most) : SlotsInv cluster most
      (inflight.insert (cluster i) ((inflight.lookup (cluster i)).getD 0 + 1))
      (update m i { v with took := true }) := by
  have hown : inSlot cluster (update m i { v with took := true }) (cluster i) =
      insert i (inSlot cluster m (cluster i)) := by
    ext j
    by_cases hj : j = i <;> simp [inSlot, hj, hgave]
  have hout : i ∉ inSlot cluster m (cluster i) := by simp [inSlot, hv, htook]
  have hcount := h.count (cluster i)
  refine h.of_own (fun id hid => lookup_insert_of_ne _ hid) ?_ (fun n hn => ?_) ?_
  · rw [lookup_insert, hown, Finset.card_insert_of_notMem hout, Option.getD_some, hcount]
    rfl
  · rw [lookup_insert] at hn
    have hval := Option.some.inj hn
    omega
  · rw [lookup_insert, Option.getD_some]
    omega

omit h

variable {s : Hub ι}

theorem SlotsInv.give (h : SlotsInv cluster most s.inflight m) (hv : m i = v)
    (htook : v.took = true) (hgave : v.gave = false) :
    SlotsInv cluster most (s.releaseSlot (cluster i)).inflight
      (update m i { v with gave := true }) := by
  have hown : inSlot cluster (update m i { v with gave := true }) (cluster i) =
      (inSlot cluster m (cluster i)).erase i := by
    ext j
    by_cases hj : j = i <;> simp [inSlot, hj]
  have hin : i ∈ inSlot cluster m (cluster i) := by simp [inSlot, hv, htook, hgave]
  have hcard : ((inSlot cluster (update m i { v with gave := true }) (cluster i)).card :
      Int) = s.slotsOf (cluster i) - 1 := by
    have hpos := Finset.card_pos.mpr ⟨i, hin⟩
    unfold Hub.slotsOf
    rw [h.count, hown, Finset.card_erase_of_mem hin]
    omega
  have hbound : s.slotsOf (cluster i) ≤ most := h.le (cluster i)
  unfold Hub.releaseSlot
  split
  · -- the last slot of the cluster: its entry goes
    refine h.of_own (fun id hid => lookup_erase_ne hid) ?_ (fun n hn => ?_) ?_
    · rw [lookup_erase, Option.getD_none]
      omega
    · rw [lookup_erase] at hn
      cases hn
    · rw [lookup_erase, Option.getD_none]
      omega
  · refine h.of_own (fun id hid => lookup_insert_of_ne _ hid) ?_ (fun n hn => ?_) ?_
    · rw [lookup_insert, Option.getD_some, hcard]
    · rw [lookup_insert] at hn
      have hval := Option.some.inj hn
      omega
    · rw [lookup_insert, Option.getD_some]
      omega

/-! ## The pact of the calls -/

variable (p : Proxy)

def weightOf (asks : ι → Ask) (i : ι) : Int :=
  p.effectiveMaxBytes (limitsOf (asks i).principal) (asks i).call.maxBytes

/-- The hub beside the record of a run. -/
structure HubInv (asks : ι → Ask) (x : Hub ι × Log ι) : Prop where
  bytes : BytesInv (weightOf p asks) x.1.bytes (marksOf x.2) (arrivals x.2)
  blocked : x.1.bytes.HeadBlocked
  capacity : x.1.bytes.capacity = p.budget
  slots : SlotsInv (fun i => (asks i).call.clusterID) p.maxInflight x.1.inflight (marksOf x.2)

/-- What a call sees of the others: its own record stays, and it can become ready. -/
def Undisturbed (i : ι) (x y : Hub ι × Log ι) : Prop :=
  marksOf y.2 i = marksOf x.2 i ∧ (i ∈ x.1.bytes.ready → i ∈ y.1.bytes.ready)

def hubPact (asks : ι → Ask) : Pact Op ι Env (Hub ι × Log ι) where
  inv := HubInv p asks
  cond _ _ _ _ := True
  rely := Undisturbed
  guar i x y := ∀ j, j ≠ i → Undisturbed j x y
  rely_refl _ _ := ⟨rfl, id⟩
  rely_trans _ _ _ _ h h' := ⟨h'.1.trans h.1, fun hr => h'.2 (h.2 hr)⟩
  rely_of_guar _ j _ _ hne _ _ h := h j (Ne.symm hne)

/-- The program of call `i` keeps the pact, and ends as it says. -/
abbrev Keeps (asks : ι → Ask) (i : ι) {α : Type} :=
  Holds (α := α) (machine ι p).recorded (hubPact p asks) i

variable {p : Proxy} {asks : ι → Ask} {x y : Hub ι × Log ι}

omit [Fintype ι] in
/-- A step of call `i` leaves the records of the others alone. -/
theorem undisturbed_append {ev : Event Ans Env (Hub ι)} {j : ι} (hj : j ≠ i)
    (hready : ∀ j ∈ x.1.bytes.ready, j ∈ s.bytes.ready) :
    Undisturbed j x (s, x.2 ++ [(i, ev)]) := by
  refine ⟨?_, hready j⟩
  rw [marksOf_append, update_of_ne hj]

/-! ## Quiet operations -/

/-- The operations that leave both budgets alone. -/
def Op.quiet : Op → Bool
  | .acquireSlot _ _ | .releaseSlot _ | .reserve _ | .withdraw | .release _ => false
  | _ => true

variable {e : Env} {o : Op} {a : Ans o} {t : Hub ι}

omit [Fintype ι] in
theorem quiet_act (ho : o.quiet = true) (h : act p i o e s = some (a, t)) : t = s := by
  cases o with
  | acquireSlot | releaseSlot | reserve | withdraw | release => cases ho
  | wait =>
    simp only [act] at h
    split at h
    · exact (congrArg Prod.snd (Option.some.inj h)).symm
    split at h
    · exact (congrArg Prod.snd (Option.some.inj h)).symm
    · cases h
  | receive =>
    simp only [act] at h
    split at h
    · exact (congrArg Prod.snd (Option.some.inj h)).symm
    · cases h
  | _ => exact (congrArg Prod.snd (Option.some.inj h)).symm

omit [DecidableEq ι] [Fintype ι] in
theorem quiet_add (ho : o.quiet = true) (v : Marks) :
    v.add (⟨o, e, a, s, t⟩ : Event Ans Env (Hub ι)) = v ∧
      joins (⟨o, e, a, s, t⟩ : Event Ans Env (Hub ι)) = false := by
  cases o <;> first | exact ⟨rfl, rfl⟩ | cases ho

theorem HubInv.quiet (h : HubInv p asks y) {u : Hub ι × Log ι} (ho : o.quiet = true)
    (hact : (machine ι p).recorded.act i o e y = some (a, u)) :
    HubInv p asks u ∧ (∀ j, j ≠ i → Undisturbed j y u) ∧ Undisturbed i y u := by
  obtain ⟨hstep, hlog⟩ := recorded_act hact
  have hsame : u.1 = y.1 := quiet_act ho hstep
  obtain ⟨hadd, hjoin⟩ := quiet_add ho (marksOf y.2 i)
  have hmarks : marksOf u.2 = marksOf y.2 := by
    rw [hlog, marksOf_append, hadd, update_eq_self]
  have harr : arrivals u.2 = arrivals y.2 := by
    rw [hlog, arrivals_append, hjoin]
    simp
  refine ⟨⟨?_, ?_, ?_, ?_⟩, fun j _ => ⟨by rw [hmarks], by rw [hsame]; exact id⟩,
    by rw [hmarks], by rw [hsame]; exact id⟩
  · rw [hmarks, harr, hsame]
    exact h.bytes
  · rw [hsame]
    exact h.blocked
  · rw [hsame]
    exact h.capacity
  · rw [hmarks, hsame]
    exact h.slots

/-- A program of quiet operations keeps what a call sees of the others. -/
theorem holds_quiet {q : Prog Ans β} (hq : q.Only fun o => o.quiet = true)
    {F : Hub ι × Log ι → Prop} (hF : ∀ x y, Undisturbed i x y → F x → F y) (hx : F x) :
    Keeps p asks i q (fun _ y => F y) x := by
  induction q generalizing x with
  | done a => exact fun t ht _ => hF x t ht hx
  | op o k ih =>
    intro t ht hinv e _ a u hact
    obtain ⟨hu, hothers, hown⟩ := HubInv.quiet hinv hq.1 hact
    exact ⟨hu, hothers, ih a (hq.2 a) (hF t u hown (hF x t ht hx))⟩

/-! ## The operations on the budgets -/

/-- An operation of `i` with its answer, as it is recorded. -/
abbrev noted (o : Op) (e : Env) (a : Ans o) (y : Hub ι × Log ι) (s : Hub ι) :
    Event Ans Env (Hub ι) := ⟨o, e, a, y.1, s⟩

/-- The rule for one operation: it keeps the invariant and nobody stops being ready. -/
theorem holds_call {Q : Ans o → Hub ι × Log ι → Prop} (hx : marksOf x.2 i = v)
    (h : ∀ y, Undisturbed i x y → HubInv p asks y → marksOf y.2 i = v →
      ∀ e a s, act p i o e y.1 = some (a, s) → HubInv p asks (s, y.2 ++ [(i, noted o e a y s)]) ∧
        (∀ j ∈ y.1.bytes.ready, j ∈ s.bytes.ready) ∧
        ∀ z, marksOf z.2 i = v.add (noted o e a y s) →
          (i ∈ s.bytes.ready → i ∈ z.1.bytes.ready) → Q a z) :
    Keeps p asks i (Prog.call o : Prog Ans (Ans o)) Q x := by
  rintro y hy hinv e - a ⟨s, log⟩ hact
  obtain ⟨hstep, hlog⟩ := recorded_act hact
  dsimp only at hstep hlog
  subst hlog
  have hv : marksOf y.2 i = v := hy.1.trans hx
  obtain ⟨hnext, hready, hQ⟩ := h y hy hinv hv e a s hstep
  refine ⟨hnext, fun j hj => undisturbed_append hj hready, fun z hz _ => hQ z ?_ hz.2⟩
  rw [hz.1, marksOf_append, update_self, hv]

variable {limit : Int}

omit [DecidableEq ι] [Fintype ι] in
theorem acquireSlot_cases {id : String} {ok : Bool} (h : s.acquireSlot id limit = (ok, t)) :
    (ok = false ∧ t = s) ∨ (ok = true ∧ s.slotsOf id < limit ∧
      t = { s with inflight := s.inflight.insert id (s.slotsOf id + 1) }) := by
  unfold Hub.acquireSlot at h
  split at h
  · cases h
    exact .inl ⟨rfl, rfl⟩
  · rename_i hroom
    cases h
    exact .inr ⟨rfl, not_le.mp hroom, rfl⟩

theorem HubInv.after_slots (h : HubInv p asks y) (hv : marksOf y.2 i = v)
    (hbytes : s.bytes = y.1.bytes) (hadd : (v.add (noted o e a y s)).forBytes = v.forBytes)
    (hjoin : joins (noted o e a y s) = false)
    (hslots : SlotsInv (fun i => (asks i).call.clusterID) p.maxInflight s.inflight
      (update (marksOf y.2) i (v.add (noted o e a y s)))) :
    HubInv p asks (s, y.2 ++ [(i, noted o e a y s)]) ∧
      ∀ j ∈ y.1.bytes.ready, j ∈ s.bytes.ready := by
  refine ⟨⟨?_, ?_, ?_, ?_⟩, fun j hj => hbytes ▸ hj⟩
  · rw [arrivals_append, hjoin, marksOf_append, hv]
    simpa [hbytes] using h.bytes.congr hv hadd
  · exact (congrArg Sem.HeadBlocked hbytes).mpr h.blocked
  · exact (congrArg Sem.capacity hbytes).trans h.capacity
  · rw [marksOf_append, hv]
    exact hslots

theorem HubInv.after_bytes (h : HubInv p asks y) (hv : marksOf y.2 i = v)
    (hadd : (v.add (noted o e a y { y.1 with bytes := b })).forSlots = v.forSlots)
    (harr : arrivals y.2 ++ (if joins (noted o e a y { y.1 with bytes := b }) then [i] else []) =
      arr) (hbytes : BytesInv (weightOf p asks) b
      (update (marksOf y.2) i (v.add (noted o e a y { y.1 with bytes := b }))) arr)
    (hblocked : b.HeadBlocked) (hcapacity : b.capacity = y.1.bytes.capacity) :
    HubInv p asks ({ y.1 with bytes := b },
      y.2 ++ [(i, noted o e a y { y.1 with bytes := b })]) := by
  refine ⟨?_, hblocked, hcapacity.trans h.capacity, ?_⟩
  · rw [arrivals_append, marksOf_append, hv, harr]
    exact hbytes
  · rw [marksOf_append, hv]
    exact h.slots.congr hv hadd

theorem holds_acquireSlot (hlimit : limit ≤ p.maxInflight) (hx : marksOf x.2 i = Marks.fresh) :
    Keeps p asks i (Prog.call (Op.acquireSlot (asks i).call.clusterID limit) : Prog Ans Bool)
      (fun ok y => marksOf y.2 i = { Marks.fresh with took := ok }) x := by
  apply holds_call hx
  intro y _ hinv hv e ok s hact
  suffices hslots : s.bytes = y.1.bytes ∧ SlotsInv (fun i => (asks i).call.clusterID) p.maxInflight
      s.inflight (update (marksOf y.2) i { Marks.fresh with took := ok }) by
    obtain ⟨hnext, hready⟩ := hinv.after_slots (o := .acquireSlot (asks i).call.clusterID limit)
      (e := e) (a := ok) hv hslots.1 rfl rfl hslots.2
    exact ⟨hnext, hready, fun z hz _ => hz⟩
  rcases acquireSlot_cases (Option.some.inj hact) with ⟨rfl, rfl⟩ | ⟨rfl, hroom, rfl⟩
  · exact ⟨rfl, hinv.slots.congr hv rfl⟩
  · exact ⟨rfl, hinv.slots.take hv rfl rfl (hroom.trans_le hlimit)⟩

theorem holds_releaseSlot (htook : v.took = true) (hgave : v.gave = false)
    (hx : marksOf x.2 i = v) : Keeps p asks i
      (Prog.call (Op.releaseSlot (asks i).call.clusterID) : Prog Ans Unit)
      (fun _ y => marksOf y.2 i = { v with gave := true }) x := by
  apply holds_call hx
  intro y _ hinv hv e a s hact
  obtain rfl : y.1.releaseSlot (asks i).call.clusterID = s :=
    congrArg Prod.snd (Option.some.inj hact)
  have hbytes : (y.1.releaseSlot (asks i).call.clusterID).bytes = y.1.bytes := by
    unfold Hub.releaseSlot
    split <;> rfl
  obtain ⟨hnext, hready⟩ := hinv.after_slots (e := e) (a := a) hv hbytes rfl rfl
    (hinv.slots.give hv htook hgave)
  exact ⟨hnext, hready, fun z hz _ => hz⟩

theorem holds_reserve (hx : marksOf x.2 i = { Marks.fresh with took := true }) :
    Keeps p asks i
      (Prog.call (Op.reserve (weightOf p asks i)) : Prog Ans Reservation)
      (fun r y => marksOf y.2 i = match r with
        | .granted => { Marks.fresh with took := true, reserved := true }
        | .queued => { Marks.fresh with took := true, joined := true }) x := by
  apply holds_call hx
  intro y _ hinv hv e r s hact
  have hpair := Option.some.inj hact
  obtain rfl : (y.1.bytes.reserve i (weightOf p asks i)).1 = r := congrArg Prod.fst hpair
  obtain rfl : { y.1 with bytes := (y.1.bytes.reserve i (weightOf p asks i)).2 } = s :=
    congrArg Prod.snd hpair
  by_cases hnow : y.1.bytes.waiters.isEmpty ∧ weightOf p asks i ≤ y.1.bytes.free
  · have hgranted : y.1.bytes.reserve i (weightOf p asks i) =
        (.granted, { y.1.bytes with free := y.1.bytes.free - weightOf p asks i }) := if_pos hnow
    rw [hgranted]
    refine ⟨hinv.after_bytes hv rfl (append_nil _)
      (hinv.bytes.reserve_granted hv rfl rfl rfl hnow) ?_ rfl, fun j hj => hj, fun z hz _ => hz⟩
    intro w hw
    have hempty : y.1.bytes.waiters = [] := isEmpty_iff.mp hnow.1
    rw [hempty] at hw
    cases hw
  · have hqueued : y.1.bytes.reserve i (weightOf p asks i) =
        (.queued, { y.1.bytes with waiters := y.1.bytes.waiters ++ [⟨i, weightOf p asks i⟩] }) :=
      if_neg hnow
    rw [hqueued]
    exact ⟨hinv.after_bytes hv rfl rfl (hinv.bytes.reserve_queued hv rfl rfl rfl rfl)
      (hinv.blocked.enqueue hnow) rfl, fun j hj => hj, fun z hz _ => hz⟩

theorem holds_withdraw (hx : marksOf x.2 i = { Marks.fresh with took := true, joined := true }) :
    Keeps p asks i (Prog.call Op.withdraw : Prog Ans Bool) (fun left y => marksOf y.2 i =
          { Marks.fresh with took := true, joined := true, withdrew := left } ∧
        (left = false → i ∈ y.1.bytes.ready)) x := by
  apply holds_call hx
  intro y _ hinv hv e left s hact
  have hpair := Option.some.inj hact
  obtain rfl : (y.1.bytes.withdraw i).1 = left := congrArg Prod.fst hpair
  obtain rfl : { y.1 with bytes := (y.1.bytes.withdraw i).2 } = s := congrArg Prod.snd hpair
  have hany : (y.1.bytes.waiters.any fun w => w.owner = i) = true ↔
      i ∈ y.1.bytes.waiters.map Waiter.owner := by
    rw [any_eq_true, mem_map]
    simp only [decide_eq_true_eq]
  by_cases hin : i ∈ y.1.bytes.waiters.map Waiter.owner
  · -- still in the queue: the waiters behind it may fit now
    have hleft : y.1.bytes.withdraw i = (true, (y.1.bytes.leave i).grant) := if_pos (hany.mpr hin)
    rw [hleft]
    obtain ⟨hgrant, hblocked, hready⟩ := (hinv.bytes.withdraw hv hin).grant
    exact ⟨hinv.after_bytes hv rfl (append_nil _) hgrant hblocked rfl, hready,
      fun z hz _ => ⟨hz, fun hno => Bool.noConfusion hno⟩⟩
  · -- granted in the meantime
    have hstays : y.1.bytes.withdraw i = (false, y.1.bytes) := if_neg (hany.not.mpr hin)
    rw [hstays]
    have hisready : i ∈ y.1.bytes.ready :=
      hinv.bytes.ready_of_not_waiting (by rw [hv]) (by rw [hv]; rfl) hin
    exact ⟨hinv.after_bytes hv rfl (append_nil _) (hinv.bytes.congr hv rfl) hinv.blocked rfl,
      fun j hj => hj, fun z hz hkept => ⟨hz, fun _ => hkept hisready⟩⟩

/-- A call that holds its bytes, as long as nobody disturbs it. -/
def Holding (i : ι) (x : Hub ι × Log ι) : Prop := HoldsBytes x.1.bytes (marksOf x.2) i

theorem holds_release (hx : marksOf x.2 i = v) (hholds : Holding i x) : Keeps p asks i
      (Prog.call (Op.release (weightOf p asks i)) : Prog Ans Unit)
      (fun _ y => marksOf y.2 i = { v with released := true }) x := by
  apply holds_call hx
  intro y hy hinv hv e a s hact
  obtain rfl : { y.1 with bytes := y.1.bytes.release (weightOf p asks i) } = s :=
    congrArg Prod.snd (Option.some.inj hact)
  have hstill : HoldsBytes y.1.bytes (marksOf y.2) i := by
    unfold HoldsBytes
    rw [hy.1]
    exact ⟨hholds.1.imp_right hy.2, hholds.2⟩
  have hpos : 0 ≤ weightOf p asks i := (p.effectiveMaxBytes_mem _ _).1.le
  obtain ⟨hgrant, hblocked, hready⟩ := (hinv.bytes.release hv hpos hstill).grant
  exact ⟨hinv.after_bytes hv rfl (append_nil _) hgrant hblocked rfl, hready, fun z hz _ => hz⟩

/-- The `select` of a call: it is ready, or its context has ended. -/
theorem holds_wait (hx : marksOf x.2 i = v) :
    Keeps p asks i (Prog.call Op.wait : Prog Ans (Option CtxErr))
      (fun r y => marksOf y.2 i = v ∧ (r = none → i ∈ y.1.bytes.ready)) x := by
  rintro y hy hinv e - r u hact
  obtain ⟨hu, hothers, hown⟩ := HubInv.quiet hinv (o := .wait) rfl hact
  refine ⟨hu, hothers, fun z hz _ => ⟨hz.1.trans (hown.1.trans (hy.1.trans hx)), fun hr => ?_⟩⟩
  refine hz.2 (hown.2 ?_)
  obtain ⟨hstep, -⟩ := recorded_act hact
  change act p i .wait e y.1 = some (r, u.1) at hstep
  simp only [act] at hstep
  split at hstep
  · have hsome := (congrArg Prod.fst (Option.some.inj hstep)).trans hr
    cases hsome
  split at hstep
  · rename_i hin
    exact hin
  · cases hstep

/-! ## One call -/

theorem only_call (h : o.quiet = true) :
    (Prog.call o : Prog Ans (Ans o)).Only fun o => o.quiet = true :=
  ⟨h, fun _ => trivial⟩

theorem notConnected_only (id : String) : (notConnected id).Only fun o => o.quiet = true := by
  refine (only_call rfl).bind fun c => ?_
  cases c with
  | none => trivial
  | some c =>
    dsimp only
    split
    · trivial
    · exact (only_call rfl).bind fun _ => trivial

theorem session_only (id : String) : (session id).Only fun o => o.quiet = true := by
  refine (only_call rfl).bind fun r => ?_
  cases r with
  | ok s => trivial
  | error e =>
    cases e with
    | unknownCluster => trivial
    | notConnected => exact (notConnected_only id).bind fun _ => trivial

theorem authorizeAndBuild_only (L : Lib) (principal : Option Principal) (call : Call) :
    (p.authorizeAndBuild L principal call).Only fun o => o.quiet = true := by
  unfold Proxy.authorizeAndBuild
  split
  · trivial
  refine (only_call rfl).bind fun c => ?_
  unfold Proxy.judge
  split
  · trivial
  split
  · trivial
  · exact (only_call rfl).bind fun _ => trivial

variable (call : Call)

theorem wrapCallError_only (err : CallErr) :
    (wrapCallError call err).Only fun o => o.quiet = true := by
  unfold wrapCallError
  split
  · exact notConnected_only _
  split
  · trivial
  · split <;> trivial

theorem readAnswer_only (start maxBytes : Int) (resp : Response) :
    (readAnswer call start maxBytes resp).Only fun o => o.quiet = true := by
  refine (only_call rfl).bind fun r => ?_
  cases r with
  | error err => exact (wrapCallError_only call err).bind fun _ => trivial
  | ok body =>
    refine (only_call rfl).bind fun now => ?_
    split
    · trivial
    refine (only_call rfl).bind fun tr => ?_
    split
    · exact (wrapCallError_only call _).bind fun _ => trivial
    · trivial

theorem exchange_only (sess : registry.Session) (req : Request) (start timeout maxBytes : Int) :
    (exchange call sess req start timeout maxBytes).Only fun o => o.quiet = true := by
  refine (only_call rfl).bind fun r => ?_
  cases r with
  | error err => exact (wrapCallError_only call err).bind fun _ => trivial
  | ok resp =>
    refine (readAnswer_only call start maxBytes resp).bind fun out => ?_
    split
    · exact (only_call rfl).bind fun _ => trivial
    · trivial

def InSlot (i : ι) (x : Hub ι × Log ι) : Prop :=
  (marksOf x.2 i).took = true ∧ (marksOf x.2 i).gave = false

/-- The call has released its bytes or never got any. -/
def Marks.Over (v : Marks) : Prop :=
  v.released = true ∨ (v.reserved = false ∧ (v.joined = false ∨ v.withdrew = true))

variable {x y : Hub ι × Log ι}

omit [Fintype ι] in
theorem InSlot.stable (h : Undisturbed i x y) (hx : InSlot i x) : InSlot i y := by
  unfold InSlot
  rw [h.1]
  exact hx

omit [Fintype ι] in
theorem Holding.stable (h : Undisturbed i x y) (hx : Holding i x) : Holding i y := by
  unfold Holding HoldsBytes
  rw [h.1]
  exact ⟨hx.1.imp_right h.2, hx.2⟩

/-- `byteSem.acquire`: the bytes are held, or the call is through with them. -/
theorem holds_acquireBytes (hinv : HubInv p asks x)
    (hx : marksOf x.2 i = { Marks.fresh with took := true }) :
    Keeps p asks i (acquireBytes p.budget (weightOf p asks i))
      (fun ok y => InSlot i y ∧ (ok = true → Holding i y) ∧
        (ok = false → (marksOf y.2 i).Over)) x := by
  obtain ⟨hpos, hle⟩ := p.effectiveMaxBytes_mem (limitsOf (asks i).principal) (asks i).call.maxBytes
  change 0 < weightOf p asks i at hpos
  change weightOf p asks i ≤ p.budget at hle
  unfold acquireBytes
  rw [if_neg (not_le.mpr hpos), if_neg (not_lt.mpr hle)]
  refine (holds_reserve hx).seq hinv fun r y hy hm => ?_
  cases r with
  | granted =>
    refine .done fun z hz _ => ?_
    have hz' := hz.1.trans hm
    unfold InSlot Holding HoldsBytes
    rw [hz']
    exact ⟨⟨rfl, rfl⟩, fun _ => ⟨Or.inl rfl, rfl⟩, fun hno => Bool.noConfusion hno⟩
  | queued =>
    refine (holds_wait hm).seq hy fun r y hy hm => ?_
    cases r with
    | none =>
      refine .done fun z hz _ => ?_
      have hz' := hz.1.trans hm.1
      have hready : i ∈ z.1.bytes.ready := hz.2 (hm.2 rfl)
      unfold InSlot Holding HoldsBytes
      rw [hz']
      exact ⟨⟨rfl, rfl⟩, fun _ => ⟨Or.inr hready, rfl⟩, fun hno => Bool.noConfusion hno⟩
    | some err =>
      refine (holds_withdraw hm.1).seq hy fun left y hy hm => ?_
      cases left with
      | true =>
        refine .done fun z hz _ => ?_
        have hz' := hz.1.trans hm.1
        unfold InSlot Marks.Over
        rw [hz']
        exact ⟨⟨rfl, rfl⟩, fun hno => Bool.noConfusion hno, fun _ => Or.inr ⟨rfl, Or.inr rfl⟩⟩
      | false =>
        -- the grant won the race: the bytes go back
        refine (holds_quiet (only_call (o := .receive) rfl)
          (F := fun z => marksOf z.2 i = { Marks.fresh with took := true, joined := true } ∧
            i ∈ z.1.bytes.ready)
          (fun a c hac ha => ⟨hac.1.trans ha.1, hac.2 ha.2⟩) ⟨hm.1, hm.2 rfl⟩).seq hy
          fun _ y hy hm => ?_
        have hholds : Holding i y := by
          unfold Holding HoldsBytes
          rw [hm.1]
          exact ⟨Or.inr hm.2, rfl⟩
        refine (holds_release hm.1 hholds).seq hy fun _ y hy hm => ?_
        refine .done fun z hz _ => ?_
        have hz' := hz.1.trans hm
        unfold InSlot Marks.Over
        rw [hz']
        exact ⟨⟨rfl, rfl⟩, fun hno => Bool.noConfusion hno, fun _ => Or.inl rfl⟩

/-- The part of `Do` that has a slot: it is through with the bytes at its end. -/
theorem holds_withSlot (L : Lib) {route : promapi.Route} {path : String} {sess : registry.Session}
    {start : Int} (hinv : HubInv p asks x)
    (hx : marksOf x.2 i = { Marks.fresh with took := true }) : Keeps p asks i
      (p.withSlot L (asks i).principal (asks i).call route path sess start)
      (fun _ y => InSlot i y ∧ (marksOf y.2 i).Over) x := by
  have hpos := (p.effectiveMaxBytes_mem (limitsOf (asks i).principal) (asks i).call.maxBytes).1
  refine (holds_acquireBytes hinv hx).seq hinv fun ok y hy hok => ?_
  cases ok with
  | true =>
    refine (holds_quiet (exchange_only _ _ _ _ _ _)
      (F := fun z => InSlot i z ∧ Holding i z)
      (fun a c hac ha => ⟨ha.1.stable hac, ha.2.stable hac⟩) ⟨hok.1, hok.2.1 rfl⟩).seq hy
        fun out y hy hok => ?_
    refine .bind hy ?_
    unfold releaseBytes
    rw [if_neg (not_le.mpr hpos)]
    refine (holds_release rfl hok.2).mono fun _ z hz hm => Holds.done fun z' hz' _ => ?_
    have hend := hz'.1.trans hm
    unfold InSlot Marks.Over
    rw [hend]
    exact ⟨hok.1, Or.inl rfl⟩
  | false =>
    refine (holds_quiet (only_call (o := .ctxErr) rfl)
      (F := fun z => InSlot i z ∧ (marksOf z.2 i).Over)
      (fun a c hac ha => ⟨ha.1.stable hac, by rw [hac.1]; exact ha.2⟩)
        ⟨hok.1, hok.2.2 rfl⟩).seq hy fun cause y hy hok => ?_
    cases cause <;>
      exact .done fun z hz _ => ⟨hok.1.stable hz, by rw [hz.1]; exact hok.2⟩

/-- What a call has done when it has returned. -/
def Settled (i : ι) (x : Hub ι × Log ι) : Prop :=
  (marksOf x.2 i).took = (marksOf x.2 i).gave ∧ (marksOf x.2 i).Over

omit [Fintype ι] in
theorem Settled.of_fresh (hx : marksOf x.2 i = Marks.fresh) : Settled i x := by
  unfold Settled Marks.Over
  rw [hx]
  exact ⟨rfl, Or.inr ⟨rfl, Or.inl rfl⟩⟩

/-- `Do` gives back what it has taken, whichever way it ends. -/
theorem holds_doCall (L : Lib) (hinv : HubInv p asks x) (hx : marksOf x.2 i = Marks.fresh) :
    Keeps p asks i (p.doCall L (asks i).principal (asks i).call) (fun _ y => Settled i y) x := by
  have hstable : ∀ a c, Undisturbed i a c → marksOf a.2 i = Marks.fresh →
      marksOf c.2 i = Marks.fresh := fun a c hac ha => hac.1.trans ha
  have hfresh : ∀ (out : Outcome) (y : Hub ι × Log ι), marksOf y.2 i = Marks.fresh →
      Keeps p asks i (pure out) (fun _ y => Settled i y) y :=
    fun out y hy => Holds.done fun z hz _ => Settled.of_fresh (hz.1.trans hy)
  refine (holds_quiet (only_call rfl) hstable hx).seq hinv fun start y hy hm => ?_
  refine (holds_quiet (authorizeAndBuild_only L _ _) hstable hm).seq hy fun checked y hy hm => ?_
  cases checked with
  | error e => exact hfresh _ _ hm
  | ok built =>
    obtain ⟨route, path⟩ := built
    refine (holds_quiet (session_only _) hstable hm).seq hy fun sess y hy hm => ?_
    cases sess with
    | error e => exact hfresh _ _ hm
    | ok sess =>
      refine (holds_acquireSlot (p.effectiveInflight_le _) hm).seq hy fun ok y hy hm => ?_
      cases ok with
      | false => exact hfresh _ _ hm
      | true =>
        refine (holds_withSlot L hy hm).seq hy fun out y hy hm => ?_
        refine (holds_releaseSlot hm.1.1 hm.1.2 rfl).seq hy fun _ z hz hm' => ?_
        refine .done fun z' hz' _ => ?_
        have hend := hz'.1.trans hm'
        unfold Settled
        rw [hend]
        exact ⟨hm.1.1, hm.2⟩

/-! ## The return -/

def Op.givesBack : Op → Bool
  | .releaseSlot _ => true
  | _ => false

theorem keeps_call (h : o.givesBack = false) :
    (Prog.call o : Prog Ans (Ans o)).Only fun o => ¬o.givesBack = true :=
  ⟨Bool.eq_false_iff.mp h, fun _ => trivial⟩

theorem not_givesBack_of_quiet (h : o.quiet = true) : ¬o.givesBack = true := by
  cases o <;> first | exact Bool.false_ne_true | cases h

theorem acquireBytes_keeps (capacity n : Int) :
    (acquireBytes capacity n).Only fun o => ¬o.givesBack = true := by
  unfold acquireBytes
  split
  · trivial
  split
  · trivial
  refine (keeps_call rfl).bind fun r => ?_
  cases r with
  | granted => trivial
  | queued =>
    refine (keeps_call rfl).bind fun cause => ?_
    cases cause with
    | none => trivial
    | some _ =>
      refine (keeps_call rfl).bind fun ok => ?_
      cases ok with
      | true => trivial
      | false => exact (keeps_call rfl).bind fun _ => (keeps_call rfl).bind fun _ => trivial

theorem withSlot_keeps (L : Lib) (principal : Option Principal) (call : Call)
    (route : promapi.Route) (path : String) (sess : registry.Session) (start : Int) :
    (p.withSlot L principal call route path sess start).Only fun o => ¬o.givesBack = true := by
  refine (acquireBytes_keeps _ _).bind fun ok => ?_
  cases ok with
  | true =>
    refine ((exchange_only _ _ _ _ _ _).mono fun _ => not_givesBack_of_quiet).bind fun out => ?_
    refine .bind ?_ fun _ => trivial
    unfold releaseBytes
    split
    · trivial
    · exact keeps_call rfl
  | false =>
    refine (keeps_call rfl).bind fun cause => ?_
    cases cause <;> trivial

/-- Giving the slot back is the last thing that a call does. -/
theorem doCall_endsWith (L : Lib) (principal : Option Principal) (call : Call) :
    (p.doCall L principal call).EndsWith fun o => o.givesBack = true := by
  refine .bind (keeps_call rfl) fun start => ?_
  refine .bind
    ((authorizeAndBuild_only L _ _).mono fun _ => not_givesBack_of_quiet) fun checked => ?_
  cases checked with
  | error e => trivial
  | ok built =>
    refine .bind ((session_only _).mono fun _ => not_givesBack_of_quiet) fun sess => ?_
    cases sess with
    | error e => trivial
    | ok sess =>
      refine .bind (keeps_call rfl) fun ok => ?_
      cases ok with
      | false => trivial
      | true =>
        refine .bind (withSlot_keeps L _ _ _ _ _ _) fun out => ?_
        exact fun _ => ⟨fun _ => ⟨_, rfl⟩, trivial⟩

omit [DecidableEq ι] [Fintype ι] in
theorem givesBack_of_gave (evs : List (Event Ans Env (Hub ι)))
    (h : (evs.foldl Marks.add v).gave = true) :
    v.gave = true ∨ ∃ ev ∈ evs, ev.op.givesBack = true := by
  induction evs generalizing v with
  | nil => exact .inl h
  | cons ev evs ih =>
    rcases ih h with hadd | ⟨ev', hev', hgives⟩
    · by_cases hop : ev.op.givesBack = true
      · exact .inr ⟨ev, mem_cons_self, hop⟩
      · refine .inl ?_
        revert hadd
        unfold Marks.add
        split <;> intro hadd
        case h_2 => exact absurd rfl hop
        all_goals exact hadd
    · exact .inr ⟨ev', mem_cons_of_mem _ hev', hgives⟩

/-! ## Whole runs -/

variable {L : Lib} {ls : List (ι × Env)} {c : Conf Ans ι (Hub ι) Outcome}

theorem hubInv_start (L : Lib) (p : Proxy) (asks : ι → Ask) :
    HubInv p asks ((start L p asks).shared, []) := by
  have hholders : holders (start L p asks).shared.bytes (marksOf ([] : Log ι)) = ∅ := by
    refine Finset.filter_false_of_mem fun i _ h => ?_
    rcases h.1 with hres | hready
    · cases hres
    · cases hready
  have hslots : ∀ id, inSlot (fun i => (asks i).call.clusterID) (marksOf ([] : Log ι)) id = ∅ :=
    fun id => Finset.filter_false_of_mem fun i _ h => Bool.noConfusion h.2.1
  have hbalanced : (start L p asks).shared.bytes.Balanced (weightOf p asks)
      (holders (start L p asks).shared.bytes (marksOf ([] : Log ι))) := by
    refine ⟨(p.maxResponseBytes_pos.trans_le p.maxResponseBytes_le).le, ?_,
      forall_mem_nil _, nodup_nil⟩
    rw [hholders, Finset.sum_empty, add_zero]
    rfl
  exact
    { bytes :=
        { balanced := hbalanced
          queue := rfl
          nodup := nodup_nil
          mem_arr := fun i => ⟨fun h => absurd h not_mem_nil, fun h => Bool.noConfusion h⟩
          waiting := forall_mem_nil _ }
      blocked := fun w hw => absurd hw (Option.not_mem_none w)
      capacity := rfl
      slots :=
        { count := fun id => by
            rw [hslots]
            rfl
          pos := fun id n h => by
            rw [show (start L p asks).shared.inflight = ∅ from rfl, lookup_empty] at h
            cases h
          le := fun _ => p.maxInflight_pos.le } }

/-- In a run the budgets are as the invariant says, and a call that has returned is settled. -/
theorem hubInv_of_run (h : run (machine ι p) (start L p asks) ls = some c) :
    HubInv p asks (c.shared, trace (machine ι p) (start L p asks) ls) ∧
      ∀ i out, c.thread i = .done out →
        Settled i (c.shared, trace (machine ι p) (start L p asks) ls) := by
  have hstart := hubInv_start L p asks
  have hrec := run_recorded [] h
  have hholds : ∀ j, Holds (machine ι p).recorded (hubPact p asks) j ((start L p asks).thread j)
      (fun _ y => Settled j y) ((start L p asks).shared, []) :=
    fun j => holds_doCall L hstart rfl
  have hmeets := meets_true (M := (machine ι p).recorded)
    ⟨((start L p asks).shared, ([] : Log ι)), (start L p asks).thread⟩ ls
  exact ⟨(run_holds hstart hholds hmeets hrec).1,
    fun i out hi => done_of_run hstart hholds hmeets hrec hi⟩

omit [Fintype ι] in
/-- A call that has given its slot back has returned. -/
theorem done_of_gave (h : run (machine ι p) (start L p asks) ls = some c)
    (hgave : (marksOf (trace (machine ι p) (start L p asks) ls) i).gave = true) :
    ∃ out, c.thread i = .done out := by
  rw [marksOf, own_trace] at hgave
  rcases givesBack_of_gave _ hgave with hfresh | ⟨ev, hev, hgives⟩
  · cases hfresh
  · exact (path_of_run h).ended (doCall_endsWith L _ _) hev hgives

theorem inSlot_eq (h : run (machine ι p) (start L p asks) ls = some c) (id : String) :
    inSlot (fun i => (asks i).call.clusterID)
        (marksOf (trace (machine ι p) (start L p asks) ls)) id =
      Finset.univ.filter fun i => (asks i).call.clusterID = id ∧
        (marksOf (trace (machine ι p) (start L p asks) ls) i).took = true ∧
          (c.thread i).result = none := by
  refine Finset.filter_congr fun i _ => and_congr_right fun _ => and_congr_right fun htook => ?_
  constructor
  · intro hgave
    cases hres : (c.thread i).result with
    | none => rfl
    | some out =>
      have hsettled := (hubInv_of_run h).2 i out (Prog.result_eq_some.mp hres)
      rw [Settled, htook, hgave] at hsettled
      cases hsettled.1
  · intro hres
    by_contra hgave
    obtain ⟨out, hout⟩ := done_of_gave h (Bool.not_eq_false _ ▸ hgave)
    rw [hout] at hres
    cases hres

/-- A call that is through with its bytes holds none. -/
theorem not_holds_of_over (hinv : HubInv p asks x) (h : (marksOf x.2 i).Over) :
    ¬HoldsBytes x.1.bytes (marksOf x.2) i := by
  rintro ⟨hholds, hunreleased⟩
  rcases h with hreleased | ⟨hres, hqueue⟩
  · rw [hreleased] at hunreleased
    cases hunreleased
  rcases hholds with hreserved | hready
  · rw [hres] at hreserved
    cases hreserved
  have hin := hinv.bytes.mem_queue.mp (mem_append_left _ hready)
  rcases hqueue with hjoined | hwithdrew
  · rw [hin.1] at hjoined
    cases hjoined
  · rw [hin.2] at hwithdrew
    cases hwithdrew

/-- Whatever calls run at once, and however they end: the free bytes and the reserved ones make up
the budget, the queue is served in the order of arrival and its head does not fit, and a cluster has
as many slots in use as calls between their acquire and their return, and no more than the hub
allows. -/
theorem hub_budgets_are_conserved (L : Lib) (p : Proxy) (asks : ι → Ask)
    (ls : List (ι × Env)) (c : Conf Ans ι (Hub ι) Outcome)
    (hrun : run (machine ι p) (start L p asks) ls = some c) :
    let log := trace (machine ι p) (start L p asks) ls
    let s := c.shared
    (0 ≤ s.bytes.free ∧
      s.bytes.free + ∑ i ∈ holders s.bytes (marksOf log), weightOf p asks i = p.budget) ∧
    (arrivals log).filter (fun i => !(marksOf log i).withdrew) =
      s.bytes.ready ++ s.bytes.waiters.map Waiter.owner ∧
    (∀ w ∈ s.bytes.waiters.head?, s.bytes.free < w.n) ∧
    (∀ id, s.slotsOf id = (Finset.univ.filter fun i => (asks i).call.clusterID = id ∧
        (marksOf log i).took = true ∧ (c.thread i).result = none).card ∧
      s.slotsOf id ≤ p.maxInflight) ∧
    ((∀ i, (c.thread i).result ≠ none) → s.bytes.free = p.budget ∧ s.inflight = ∅) := by
  intro log s
  obtain ⟨hinv, hsettled⟩ := hubInv_of_run hrun
  have hsum : s.bytes.free + ∑ i ∈ holders s.bytes (marksOf log), weightOf p asks i = p.budget :=
    hinv.bytes.balanced.total.trans hinv.capacity
  refine ⟨⟨hinv.bytes.balanced.free_nonneg, hsum⟩, hinv.bytes.queue, hinv.blocked,
    fun id => ⟨?_, hinv.slots.le id⟩, fun hall => ⟨?_, ?_⟩⟩
  · rw [← inSlot_eq hrun id]
    exact hinv.slots.count id
  · have hnone : holders s.bytes (marksOf log) = ∅ := by
      refine Finset.filter_false_of_mem fun i _ => ?_
      obtain ⟨out, hout⟩ := Option.ne_none_iff_exists'.mp (hall i)
      exact not_holds_of_over hinv (hsettled i out (Prog.result_eq_some.mp hout)).2
    rw [hnone, Finset.sum_empty, add_zero] at hsum
    exact hsum
  · refine ext_lookup fun id => ?_
    cases hid : s.inflight.lookup id with
    | none => rfl
    | some n =>
      have hcount := hinv.slots.count id
      have hempty : inSlot (fun i => (asks i).call.clusterID) (marksOf log) id = ∅ := by
        rw [inSlot_eq hrun id]
        exact Finset.filter_false_of_mem fun i _ h => hall i h.2.2
      rw [hempty] at hcount
      change (s.inflight.lookup id).getD 0 = 0 at hcount
      have hpos := hinv.slots.pos id n hid
      rw [hid, Option.getD_some] at hcount
      omega

/-- A call that waits for bytes waits for another one that holds some and has not returned: the
budget alone never stops the hub. -/
theorem waiting_calls_wait_for_a_running_one (L : Lib) (p : Proxy) (asks : ι → Ask)
    (ls : List (ι × Env)) (c : Conf Ans ι (Hub ι) Outcome)
    (hrun : run (machine ι p) (start L p asks) ls = some c) (w : Waiter ι)
    (hw : w ∈ c.shared.bytes.waiters) :
    ∃ i ∈ holders c.shared.bytes (marksOf (trace (machine ι p) (start L p asks) ls)),
      i ≠ w.owner ∧ (c.thread i).result = none := by
  obtain ⟨hinv, hsettled⟩ := hubInv_of_run hrun
  obtain ⟨i, hi, hne⟩ := hinv.bytes.balanced.exists_holder hinv.blocked
    (fun _ => (p.effectiveMaxBytes_mem _ _).2.trans_eq hinv.capacity.symm) hw
  refine ⟨i, hi, hne, ?_⟩
  by_contra hdone
  obtain ⟨out, hout⟩ := Option.ne_none_iff_exists'.mp hdone
  exact not_holds_of_over hinv (hsettled i out (Prog.result_eq_some.mp hout)).2 (mem_holders.mp hi)

end

theorem wideProxy_slots : (0 : Int) < 3 := by decide

/-- The small hub with three calls to a cluster at a time. -/
def wideProxy : Proxy := { smallProxy with maxInflight := 3, maxInflight_pos := wideProxy_slots }

def eastAsk : Ask := ⟨some (callerOf ["east"]), callTo "east" .alerts ∅⟩

/-- Three calls: two have the bytes and the third waits. The context of the third ends after
the first has made room for it, and it gives back what it was granted. -/
def raceRun : List (Fin 3 × Env) :=
  (numbered (List.replicate 6 0 ++ List.replicate 6 1 ++ List.replicate 6 2 ++
      List.replicate 7 0)).map (fun i => (i, calm eastReg)) ++
    (numbered (List.replicate 6 2)).map
      (fun i => (i, { calm eastReg with ctx := some .canceled })) ++
    (numbered (List.replicate 7 1)).map fun i => (i, calm eastReg)

/-- The bytes are all there while the third call waits and when all have returned. -/
theorem three_calls_share_ten_bytes :
    (∃ c, run (machine (Fin 3) wideProxy) (start smallLib wideProxy fun _ => eastAsk)
        (raceRun.take 18) = some c ∧ c.shared.bytes.free = 2 ∧
      c.shared.bytes.waiters = [⟨2, 4⟩] ∧ c.shared.slotsOf "east" ≤ 3 ∧
      c.shared.bytes.free + ∑ i ∈ holders c.shared.bytes (marksOf (trace (machine (Fin 3) wideProxy)
        (start smallLib wideProxy fun _ => eastAsk) (raceRun.take 18))),
          weightOf wideProxy (fun _ => eastAsk) i = 10) ∧
    ∃ c, run (machine (Fin 3) wideProxy) (start smallLib wideProxy fun _ => eastAsk) raceRun =
        some c ∧
      (c.thread 2).result = some (fail (.ended "east" .alerts .canceled)) ∧
      c.shared.bytes.free = 10 ∧ c.shared.inflight = ∅ := by
  obtain ⟨⟨-, htotal⟩, -, -, hslots, -⟩ := hub_budgets_are_conserved smallLib wideProxy
    (fun _ => eastAsk) (raceRun.take 18) _ rfl
  obtain ⟨-, -, -, -, hall⟩ := hub_budgets_are_conserved smallLib wideProxy (fun _ => eastAsk)
    raceRun _ rfl
  refine ⟨⟨_, rfl, rfl, rfl, (hslots _).2, htotal⟩, _, rfl, rfl, hall fun i => ?_⟩
  match i with
  | 0 | 1 | 2 => exact Option.some_ne_none _

/-- The third call waits for one of the others. -/
theorem the_third_call_waits_for_another : ∃ c : Conf Ans (Fin 3) (Hub (Fin 3)) Outcome,
    run (machine (Fin 3) wideProxy) (start smallLib wideProxy fun _ => eastAsk)
      (raceRun.take 18) = some c ∧ ∃ i ≠ 2, (c.thread i).result = none := by
  obtain ⟨i, -, hi⟩ := waiting_calls_wait_for_a_running_one smallLib wideProxy (fun _ => eastAsk)
    (raceRun.take 18) _ rfl ⟨2, 4⟩ (by decide +kernel)
  exact ⟨_, rfl, i, hi⟩

end prom_fleet.promproxy
