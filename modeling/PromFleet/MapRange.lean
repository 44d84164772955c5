-- Loops over a map. A range visits the entries of a finite map once each, in an
-- order that the map does not fix, and a loop may delete the entries it visits
-- or keep the best entry of each class. The loop that fills a map takes a list.
import Mathlib.Data.Finmap
import Mathlib.Data.List.Sort

namespace prom_fleet.map_range

open List Finmap

variable {K C V : Type}

/-! ## Ranges -/

/-- One way to visit the entries of every map. -/
structure Range (K V : Type) where
  list : Finmap (fun _ : K => V) → List (Σ _ : K, V)
  entries : ∀ m, (list m : Multiset (Σ _ : K, V)) = m.entries

namespace Range

variable [DecidableEq K] (r : Range K V) (m : Finmap fun _ : K => V)

theorem mem_list {k : K} {v : V} : (⟨k, v⟩ : Σ _ : K, V) ∈ r.list m ↔ m.lookup k = some v := by
  rw [Finmap.lookup_eq_some_iff, ← r.entries m, Multiset.mem_coe]

omit [DecidableEq K] in
theorem nodup_keys : ((r.list m).map Sigma.fst).Nodup := by
  have h := m.nodupKeys
  rw [← r.entries m] at h
  exact h

end Range

section Ascending

variable [LinearOrder K]

/-- The keys of a map in ascending order. -/
def sortedKeys (m : Finmap fun _ : K => V) : List K :=
  Quot.liftOn m.keys.val (fun l => l.insertionSort (· ≤ ·)) fun a b h =>
    ((perm_insertionSort _ a).trans
      (h.trans (perm_insertionSort _ b).symm)).eq_of_pairwise
      (fun _ _ _ _ => le_antisymm) (pairwise_insertionSort _ a)
      (pairwise_insertionSort _ b)

variable (m : Finmap fun _ : K => V)

theorem coe_sortedKeys : (sortedKeys m : Multiset K) = m.keys.val := by
  unfold sortedKeys
  induction m.keys.val using Quot.inductionOn with
  | h l => exact Quot.sound (perm_insertionSort _ l)

theorem mem_sortedKeys {m : Finmap fun _ : K => V} {k : K} : k ∈ sortedKeys m ↔ k ∈ m := by
  rw [← Multiset.mem_coe, coe_sortedKeys, Finset.mem_val, Finmap.mem_keys]

theorem nodup_sortedKeys : (sortedKeys m).Nodup := by
  rw [← Multiset.coe_nodup, coe_sortedKeys]
  exact m.keys.nodup

def ascending : Range K V where
  list m := (sortedKeys m).filterMap fun k => (m.lookup k).map fun v => ⟨k, v⟩
  entries m := by
    refine (Multiset.Nodup.ext ?_ m.nodupKeys.nodup).mpr ?_
    · rw [Multiset.coe_nodup]
      refine (nodup_sortedKeys m).filterMap ?_
      intro a b e ha hb
      simp only [Option.mem_def, Option.map_eq_some_iff] at ha hb
      obtain ⟨v, _, rfl⟩ := ha
      obtain ⟨w, _, hw⟩ := hb
      cases hw
      rfl
    · rintro ⟨k, v⟩
      rw [Multiset.mem_coe, ← Finmap.lookup_eq_some_iff, List.mem_filterMap]
      constructor
      · rintro ⟨k', _, h⟩
        rw [Option.map_eq_some_iff] at h
        obtain ⟨w, hw, he⟩ := h
        cases he
        exact hw
      · intro h
        exact ⟨k, mem_sortedKeys.mpr (mem_iff.mpr ⟨v, h⟩), by rw [h]; rfl⟩

theorem map_fst_ascending : (ascending.list m).map Sigma.fst = sortedKeys m := by
  have hall : ∀ k ∈ sortedKeys m, k ∈ m := fun k => mem_sortedKeys.mp
  show ((sortedKeys m).filterMap fun k => (m.lookup k).map fun v => ⟨k, v⟩).map Sigma.fst = _
  generalize sortedKeys m = l at hall ⊢
  induction l with
  | nil => rfl
  | cons k l ih =>
    obtain ⟨v, hv⟩ := mem_iff.mp (hall k mem_cons_self)
    rw [filterMap_cons, hv]
    exact congrArg (k :: ·) (ih fun k' hk' => hall k' (mem_cons_of_mem k hk'))

variable {m m' : Finmap fun _ : K => V}

/-- The keys decide the order, whatever the values are. -/
theorem ascending_of_keys (h : m.keys = m'.keys) :
    (ascending.list m).map Sigma.fst = (ascending.list m').map Sigma.fst := by
  rw [map_fst_ascending, map_fst_ascending]
  unfold sortedKeys
  rw [h]

/-- The keys of a part of a map are a part of its keys, in the same order. -/
theorem sortedKeys_eq_filter {keep : K → Bool} (h : ∀ k, k ∈ m' ↔ k ∈ m ∧ keep k = true) :
    sortedKeys m' = (sortedKeys m).filter keep := by
  have hsorted : ∀ x : Finmap fun _ : K => V, (sortedKeys x).Pairwise (· ≤ ·) := by
    intro x
    unfold sortedKeys
    induction x.keys.val using Quot.inductionOn with
    | h l => exact pairwise_insertionSort _ l
  have hperm : (sortedKeys m').Perm ((sortedKeys m).filter keep) := by
    refine (perm_ext_iff_of_nodup (nodup_sortedKeys m') ((nodup_sortedKeys m).filter _)).mpr
      fun k => ?_
    rw [mem_sortedKeys, mem_filter, mem_sortedKeys, h]
  exact hperm.eq_of_pairwise (fun _ _ _ _ => le_antisymm) (hsorted m') ((hsorted m).filter _)

theorem flatMap_ascending {W : Type} (f : K → V → List W) (m : Finmap fun _ : K => V) :
    (ascending.list m).flatMap (fun x => f x.1 x.2) =
      (sortedKeys m).flatMap fun k => ((m.lookup k).map (f k)).getD [] := by
  show ((sortedKeys m).filterMap fun k => (m.lookup k).map fun v => (⟨k, v⟩ : Σ _ : K, V)).flatMap
    (fun x => f x.1 x.2) = _
  induction sortedKeys m with
  | nil => rfl
  | cons k l ih =>
    cases hk : m.lookup k with
    | none | some => simp [hk, ih]

end Ascending

theorem lookup_insert_cases [DecidableEq K] {m : Finmap fun _ : K => V} {k k' : K} {v v' : V}
    (h : (m.insert k v).lookup k' = some v') :
    k' = k ∧ v' = v ∨ k' ≠ k ∧ m.lookup k' = some v' := by
  by_cases hk : k' = k
  · subst hk
    rw [lookup_insert] at h
    exact .inl ⟨rfl, (Option.some.inj h).symm⟩
  · exact .inr ⟨hk, (lookup_insert_of_ne _ hk).symm.trans h⟩

/-- The loop that writes at most one entry of a new map for each entry that it visits. -/
def collect {W : Type} [DecidableEq K] (f : K → V → Option W) (l : List (Σ _ : K, V)) :
    Finmap fun _ : K => W :=
  l.foldl (fun out e => match f e.1 e.2 with
    | none => out
    | some w => out.insert e.1 w) ∅

/-! ## Filling a map from a list -/

section Inserts

variable {α : Type} [DecidableEq K] (key : α → K) (value : α → V) {l : List α}

/-- The loop that writes an entry for each item, no two of them under one key. -/
theorem lookup_inserts (h : (l.map key).Nodup) (m : Finmap fun _ : K => V) (k : K) :
    (l.foldl (fun m x => m.insert (key x) (value x)) m).lookup k =
      ((l.find? fun x => decide (key x = k)).map value).or (m.lookup k) := by
  induction l generalizing m with
  | nil => simp
  | cons x l ih =>
    rw [map_cons, nodup_cons] at h
    rw [foldl_cons, ih h.2, List.find?_cons]
    by_cases hx : key x = k
    · have hnone : l.find? (fun y => decide (key y = k)) = none := by
        rw [List.find?_eq_none]
        intro y hy hyk
        apply h.1
        rw [hx, ← of_decide_eq_true hyk]
        exact mem_map_of_mem hy
      subst hx
      simp [hnone]
    · simp [hx, lookup_insert_of_ne _ (Ne.symm hx)]

variable {k : K}

/-- With distinct keys, the item that a search finds is the one with the key. -/
theorem find_key_eq_some (h : (l.map key).Nodup) {x : α} :
    l.find? (fun x => decide (key x = k)) = some x ↔ x ∈ l ∧ key x = k := by
  constructor
  · intro hfind
    exact ⟨mem_of_find?_eq_some hfind, of_decide_eq_true (List.find?_some hfind :)⟩
  rintro ⟨hx, rfl⟩
  have hsome : (l.find? fun y => decide (key y = key x)).isSome = true :=
    List.find?_isSome.mpr ⟨x, hx, decide_eq_true rfl⟩
  obtain ⟨y, hy⟩ := Option.isSome_iff_exists.mp hsome
  rw [hy, inj_on_of_nodup_map h (mem_of_find?_eq_some hy) hx
    (of_decide_eq_true (List.find?_some hy :))]

theorem lookup_inserts_empty (h : (l.map key).Nodup) {v : V} :
    (l.foldl (fun (m : Finmap fun _ : K => V) x => m.insert (key x) (value x)) ∅).lookup k =
        some v ↔
      ∃ x ∈ l, key x = k ∧ value x = v := by
  rw [lookup_inserts key value h, lookup_empty, Option.or_none, Option.map_eq_some_iff]
  simp only [find_key_eq_some key h, and_assoc]

end Inserts

/-! ## Deleting while ranging -/

section Sweep

variable [DecidableEq K]

/-- The loop that deletes what it visits if `drop` says so, and counts it. -/
def sweep (drop : K → V → Bool) (l : List (Σ _ : K, V)) (acc : Finmap (fun _ : K => V) × Nat) :
    Finmap (fun _ : K => V) × Nat :=
  l.foldl (fun acc e => if drop e.1 e.2 then (acc.1.erase e.1, acc.2 + 1) else acc) acc

variable (drop : K → V → Bool)

theorem sweep_cons (e : Σ _ : K, V) (l : List (Σ _ : K, V)) (acc : Finmap (fun _ : K => V) × Nat) :
    sweep drop (e :: l) acc =
      sweep drop l (if drop e.1 e.2 then (acc.1.erase e.1, acc.2 + 1) else acc) := rfl

variable (l : List (Σ _ : K, V))

variable (acc : Finmap (fun _ : K => V) × Nat)

theorem lookup_sweep_list (k : K) :
    (sweep drop l acc).1.lookup k =
      if l.any (fun e => decide (e.1 = k) && drop e.1 e.2) then none else acc.1.lookup k := by
  induction l generalizing acc with
  | nil => simp [sweep]
  | cons e l ih =>
    rw [sweep_cons, ih, any_cons]
    by_cases hl : l.any (fun e => decide (e.1 = k) && drop e.1 e.2) = true
    · simp [hl]
    by_cases hd : drop e.1 e.2 = true
    · by_cases hk : e.1 = k
      · subst hk
        simp [hd, lookup_erase]
      · simp [hl, hd, hk, lookup_erase_ne (Ne.symm hk)]
    · simp [hl, hd]

theorem sweep_count :
    (sweep drop l acc).2 = acc.2 + l.countP fun e => drop e.1 e.2 := by
  induction l generalizing acc with
  | nil => simp [sweep]
  | cons e l ih =>
    rw [sweep_cons, ih, countP_cons]
    by_cases hd : drop e.1 e.2 = true
    · simp only [hd, if_true]
      omega
    · simp only [hd]
      simp

variable (r : Range K V) (drop : K → V → Bool) (m : Finmap fun _ : K => V)

theorem lookup_sweep (k : K) :
    (sweep drop (r.list m) (m, 0)).1.lookup k = (m.lookup k).filter fun v => !drop k v := by
  rw [lookup_sweep_list]
  have hany : (r.list m).any (fun e => decide (e.1 = k) && drop e.1 e.2) = true ↔
      ∃ v, m.lookup k = some v ∧ drop k v = true := by
    rw [any_eq_true]
    constructor
    · rintro ⟨⟨k', v⟩, he, hd⟩
      simp only [Bool.and_eq_true, decide_eq_true_eq] at hd
      obtain ⟨rfl, hd⟩ := hd
      exact ⟨v, (r.mem_list m).mp he, hd⟩
    · rintro ⟨v, hv, hd⟩
      exact ⟨⟨k, v⟩, (r.mem_list m).mpr hv, by simp [hd]⟩
  cases hm : m.lookup k with
  | none => simp
  | some v => by_cases hd : drop k v = true <;> simp [hany, hm, Option.filter, hd]

theorem sweep_count_eq_zero :
    (sweep drop (r.list m) (m, 0)).2 = 0 ↔ ∀ k v, m.lookup k = some v → drop k v = false := by
  rw [sweep_count]
  simp only [Nat.zero_add, countP_eq_zero, Bool.not_eq_true]
  constructor
  · intro hall k v hv
    exact hall ⟨k, v⟩ ((r.mem_list m).mpr hv)
  · rintro hall ⟨k, v⟩ he
    exact hall k v ((r.mem_list m).mp he)

theorem sweep_of_keep (h : ∀ k v, m.lookup k = some v → drop k v = false) :
    (sweep drop (r.list m) (m, 0)).1 = m := by
  apply ext_lookup
  intro k
  rw [lookup_sweep]
  cases hm : m.lookup k with
  | none => rfl
  | some v => simp [Option.filter, h k v hm]

end Sweep

/-! ## The best of each class -/

section Best

variable [DecidableEq C]

variable (cls : V → Option C)

/-- One round of the loop that keeps the best value of each class. -/
def improve (better : V → V → Bool) (best : Finmap fun _ : C => V) (v : V) :
    Finmap fun _ : C => V :=
  match cls v with
  | none => best
  | some c =>
    match best.lookup c with
    | none => best.insert c v
    | some cur => if better v cur then best.insert c v else best

/-- The best value of each class, the values taken in the order of the list. -/
def bestOf (better : V → V → Bool) (l : List V) : Finmap fun _ : C => V :=
  l.foldl (improve cls better) ∅

/-- `better` is irreflexive, and a value that does not beat `b` does not beat
what beats `b`. -/
structure Ranks (better : V → V → Bool) : Prop where
  irrefl : ∀ a, better a a = false
  weak : ∀ a b c, better a b = false → better c b = true → better a c = false

/-- `best` holds, for each class of `l`, a value of `l` that no other beats. -/
def Leads (better : V → V → Bool) (l : List V)
    (best : Finmap fun _ : C => V) : Prop :=
  (∀ c v, best.lookup c = some v →
    v ∈ l ∧ cls v = some c ∧ ∀ w ∈ l, cls w = some c → better w v = false) ∧
  ∀ c, best.lookup c = none → ∀ w ∈ l, cls w ≠ some c

variable {cls : V → Option C} {better : V → V → Bool} {best : Finmap fun _ : C => V} {l : List V}
  {v : V}

theorem leads_keep (h : Leads cls better l best)
    (hv : ∀ c, cls v = some c → ∃ cur, best.lookup c = some cur ∧ better v cur = false) :
    Leads cls better (l ++ [v]) best := by
  refine ⟨fun c w hw => ?_, fun c hc => ?_⟩
  · obtain ⟨h1, h2, h3⟩ := h.1 c w hw
    refine ⟨mem_append_left _ h1, h2, forall_mem_append.mpr ⟨h3, forall_mem_singleton.mpr ?_⟩⟩
    intro hvc
    obtain ⟨cur, hcur, hb⟩ := hv c hvc
    rw [hw] at hcur
    cases hcur
    exact hb
  · refine forall_mem_append.mpr ⟨h.2 c hc, forall_mem_singleton.mpr fun hvc => ?_⟩
    obtain ⟨cur, hcur, _⟩ := hv c hvc
    rw [hc] at hcur
    cases hcur

theorem leads_insert {c : C} (h : Leads cls better l best) (hc : cls v = some c)
    (hv : ∀ w ∈ l, cls w = some c → better w v = false) (hvv : better v v = false) :
    Leads cls better (l ++ [v]) (best.insert c v) := by
  refine ⟨fun d w hw => ?_, fun d hd => ?_⟩
  · obtain ⟨rfl, rfl⟩ | ⟨hdc, hw⟩ := lookup_insert_cases hw
    · exact ⟨mem_append_right _ (mem_singleton_self _), hc,
        forall_mem_append.mpr ⟨hv, forall_mem_singleton.mpr fun _ => hvv⟩⟩
    · obtain ⟨h1, h2, h3⟩ := h.1 d w hw
      refine ⟨mem_append_left _ h1, h2, forall_mem_append.mpr ⟨h3, forall_mem_singleton.mpr ?_⟩⟩
      exact fun hvd => absurd (Option.some.inj (hvd.symm.trans hc)) hdc
  · have hdc : d ≠ c := by
      rintro rfl
      rw [lookup_insert] at hd
      cases hd
    rw [lookup_insert_of_ne _ hdc] at hd
    refine forall_mem_append.mpr ⟨h.2 d hd, forall_mem_singleton.mpr fun hvd => hdc ?_⟩
    exact Option.some.inj (hvd.symm.trans hc)

theorem leads_improve (hr : Ranks better) (v : V) (h : Leads cls better l best) :
    Leads cls better (l ++ [v]) (improve cls better best v) := by
  unfold improve
  split
  · rename_i hc
    refine leads_keep h fun c hc' => ?_
    rw [hc] at hc'
    cases hc'
  · rename_i c hc
    split
    · rename_i hn
      exact leads_insert h hc (fun w hw hwc => absurd hwc (h.2 c hn w hw)) (hr.irrefl v)
    rename_i cur hcur
    split
    · rename_i hb
      refine leads_insert h hc (fun w hw hwc => ?_) (hr.irrefl v)
      exact hr.weak w cur v ((h.1 c cur hcur).2.2 w hw hwc) hb
    · rename_i hb
      refine leads_keep h fun d hd => ?_
      rw [hc] at hd
      cases hd
      exact ⟨cur, hcur, by simpa using hb⟩

/-- The loop ends with a best value of each class of the list. -/
theorem leads_bestOf (hr : Ranks better) (l : List V) :
    Leads cls better l (bestOf cls better l) := by
  induction l using List.reverseRecOn with
  | nil => exact ⟨fun c v h => by simp [bestOf] at h, fun c _ w hw => by simp at hw⟩
  | append_singleton l v ih =>
    unfold bestOf at *
    rw [foldl_append]
    exact leads_improve hr v ih

end Best

end prom_fleet.map_range
