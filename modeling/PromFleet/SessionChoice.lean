-- The choice of a session: it is open, it can reach Prometheus if an open one can, and the
-- round robin gives each eligible slot its share of any row of selections.
import PromFleet.Proxy
import PromFleet.RegistryLaws
import Mathlib.Data.Int.CardIntervalMod

namespace prom_fleet.registry

open List interleave map_range

def Reg.Open (r : Reg) (gone : Ref → Bool) (id key : String) (sl : Slot) : Prop :=
  ∃ ref, r.occupant id key = some ref ∧ r.heap[ref]? = some sl ∧ gone ref = false

/-- The slot is open, and it can reach Prometheus if an open one can. -/
def Reg.Best (r : Reg) (gone : Ref → Bool) (id key : String) (sl : Slot) : Prop :=
  r.Open gone id key sl ∧ (sl.facts.reachable = false →
    ∀ key' sl', r.Open gone id key' sl' → sl'.facts.reachable = false)

section Choice

variable {r : Reg} {o : Orders} {e : Entry} {gone : Ref → Bool} {key id : String} {ref : Ref}
  {sl : Slot} {x : String × Ref × Slot}

theorem mem_live : (key, ref, sl) ∈ r.live o e gone ↔
    e.slots.lookup key = some ref ∧ r.heap[ref]? = some sl ∧ gone ref = false := by
  unfold Reg.live
  rw [mem_filterMap]
  constructor
  · rintro ⟨⟨key', ref'⟩, hmem, hx⟩
    obtain ⟨sl', hsl, hx⟩ := Option.bind_eq_some_iff.mp hx
    split at hx
    · cases hx
    rename_i hopen
    cases hx
    exact ⟨(o.slots.mem_list _).mp hmem, hsl, Bool.eq_false_iff.mpr hopen⟩
  · rintro ⟨hkey, hsl, hgone⟩
    exact ⟨⟨key, ref⟩, (o.slots.mem_list _).mpr hkey, by simp [hsl, hgone]⟩

theorem exists_live_iff (he : r.entries.lookup id = some e) :
    (∃ ref, (key, ref, sl) ∈ r.live o e gone) ↔ r.Open gone id key sl := by
  simp [mem_live, Reg.Open, Reg.occupant, he]

theorem mem_eligible : x ∈ r.eligible o e gone ↔ x ∈ r.live o e gone ∧
    (x.2.2.facts.reachable = false →
      ∀ y ∈ r.live o e gone, y.2.2.facts.reachable = false) := by
  unfold Reg.eligible
  rw [mem_insertionSort]
  split
  · rename_i hnone
    have hall : ∀ y ∈ r.live o e gone, y.2.2.facts.reachable = false := by
      simpa [filter_eq_nil_iff] using hnone
    exact ⟨fun hx => ⟨hx, fun _ => hall⟩, And.left⟩
  · rename_i hsome
    obtain ⟨y, hy, hr⟩ : ∃ y ∈ r.live o e gone, y.2.2.facts.reachable = true := by
      simpa [List.filter_eq_nil_iff] using hsome
    rw [List.mem_filter]
    refine and_congr_right fun _ => ?_
    cases hx : x.2.2.facts.reachable with
    | true => simp
    | false => simpa using ⟨_, _, _, hy, hr⟩

/-- A chosen slot is open, and the best one. -/
theorem best_of_eligible (he : r.entries.lookup id = some e) (hx : x ∈ r.eligible o e gone) :
    r.Best gone id x.1 x.2.2 := by
  obtain ⟨hlive, hbest⟩ := mem_eligible.mp hx
  refine ⟨(exists_live_iff he).mp ⟨_, hlive⟩, fun hno key' sl' h' => ?_⟩
  obtain ⟨ref', hlive'⟩ := (exists_live_iff (o := o) he).mpr h'
  exact hbest hno _ hlive'

theorem eligible_ne_nil (h : r.live o e gone ≠ []) : r.eligible o e gone ≠ [] := by
  obtain ⟨x, hx⟩ := exists_mem_of_ne_nil _ h
  by_cases hreach : ∃ y ∈ r.live o e gone, y.2.2.facts.reachable = true
  · obtain ⟨y, hy, hr⟩ := hreach
    exact ne_nil_of_mem (mem_eligible.mpr ⟨hy, fun hno => by cases hr.symm.trans hno⟩)
  · exact ne_nil_of_mem (mem_eligible.mpr ⟨hx, fun _ y hy =>
      Bool.eq_false_iff.mpr fun hr => hreach ⟨y, hy, hr⟩⟩)

theorem keys_nodup : ((r.eligible o e gone).map Prod.fst).Nodup := by
  have hkeys := o.slots.nodup_keys e.slots
  have hlive : (r.live o e gone).Pairwise fun a b => a.1 ≠ b.1 := by
    refine (pairwise_map.mp hkeys).filterMap _ fun a b hab c hc d hd => ?_
    simp only [Option.bind_eq_some_iff] at hc hd
    obtain ⟨_, _, hc⟩ := hc
    obtain ⟨_, _, hd⟩ := hd
    split at hc <;> [cases hc; cases hc]
    split at hd <;> [cases hd; cases hd]
    exact hab
  refine pairwise_map.mpr (((perm_insertionSort _ _).pairwise_iff Ne.symm).mpr ?_)
  split
  · exact hlive
  · exact hlive.filter _

/-- With a slot to choose from, `Session` gives the session of the one that `pickLocked` chooses,
and the counter goes on by one. -/
theorem session_eq (he : r.entries.lookup id = some e) (h : r.eligible o e gone ≠ [])
    (grace now : Int) : ∃ x ∈ r.eligible o e gone, r.pickLocked o e gone = some x ∧
      r.session grace o now gone id = (.ok x.2.2.session, r.withCursor id (e.rr + 1)) := by
  have hlt := Nat.mod_lt (e.rr &&& 2147483647) (length_pos_of_ne_nil h)
  have hpick : r.pickLocked o e gone = some _ := List.getElem?_eq_getElem hlt
  have hpresent : presentLocked grace e now = true := by
    obtain ⟨x, hx⟩ := exists_mem_of_ne_nil _ h
    have hkey := (mem_live.mp (mem_eligible.mp hx).1).1
    unfold presentLocked
    rw [if_pos]
    rintro hempty
    rw [hempty] at hkey
    cases hkey
  refine ⟨_, getElem_mem hlt, hpick, ?_⟩
  simp [Reg.session, he, hpresent, hpick]

theorem rr_withCursor (he : r.entries.lookup id = some e) (rr : Nat) :
    ((r.withCursor id rr).entries.lookup id).map Entry.rr = some (rr % 2 ^ 64) := by
  simp [Reg.withCursor, he]

end Choice

/-- What a call of `Session` finds: the registry, the order of its loops, the clock, and which
slots have a session that is closed when it is examined. -/
structure Look where
  reg : Reg
  orders : Orders
  now : Int
  gone : Ref → Bool

namespace Look

variable (v : Look) (id : String)

def session (grace : Int) : Except SessionErr Session × Reg :=
  v.reg.session grace v.orders v.now v.gone id

/-- The eligible slots, by key and address. -/
def eligible : List (String × Ref) :=
  ((v.reg.entries.lookup id).elim [] fun e => v.reg.eligible v.orders e v.gone).map
    fun x => (x.1, x.2.1)

/-- The slot whose session the call gives. -/
def chosen : Option (String × Ref) :=
  ((v.reg.entries.lookup id).bind fun e => v.reg.pickLocked v.orders e v.gone).map
    fun x => (x.1, x.2.1)

def rr : Option Nat := (v.reg.entries.lookup id).map Entry.rr

variable {v w : Look} {id} {n : Nat}

theorem chosen_eq (hn : v.rr id = some n) :
    v.chosen id = (v.eligible id)[n % 2 ^ 31 % (v.eligible id).length]? := by
  obtain ⟨e, he, rfl⟩ := Option.map_eq_some_iff.mp hn
  simp only [chosen, eligible, he, Option.bind_some, Option.elim_some, Reg.pickLocked, length_map,
    getElem?_map]
  rw [show 2147483647 = 2 ^ 31 - 1 from rfl, Nat.and_two_pow_sub_one_eq_mod]

theorem nodup_eligible : ((v.eligible id).map Prod.fst).Nodup := by
  unfold eligible
  rw [map_map]
  cases v.reg.entries.lookup id with
  | none => exact nodup_nil
  | some e => exact keys_nodup

/-- Two selections from the same slots choose from the same list. -/
theorem eligible_eq (h : (v.eligible id).toFinset = (w.eligible id).toFinset) :
    v.eligible id = w.eligible id := by
  have hsorted (v : Look) : (v.eligible id).Pairwise fun a b => a.1 ≤ b.1 := by
    unfold eligible
    refine pairwise_map.mpr ?_
    cases v.reg.entries.lookup id with
    | none => exact .nil
    | some e => exact pairwise_insertionSort _ _
  have hperm := perm_of_nodup_nodup_toFinset_eq (.of_map _ nodup_eligible)
    (.of_map _ nodup_eligible) h
  refine hperm.eq_of_pairwise (fun a b ha hb hab hba => ?_) (hsorted v) (hsorted w)
  exact inj_on_of_nodup_map nodup_eligible (hperm.subset ha) hb (le_antisymm hab hba)

/-- A selection leaves the counter one further. -/
theorem rr_session (hn : v.rr id = some n) (h : v.eligible id ≠ []) (grace : Int) :
    ((v.session id grace).2.entries.lookup id).map Entry.rr = some ((n + 1) % 2 ^ 64) := by
  obtain ⟨e, he, rfl⟩ := Option.map_eq_some_iff.mp hn
  have hne : v.reg.eligible v.orders e v.gone ≠ [] := by simpa [eligible, he] using h
  obtain ⟨x, -, -, hsession⟩ := session_eq he hne grace v.now
  rw [session, hsession]
  exact rr_withCursor he _

end Look

/-- In any `N` turns in a row, each of `k` places has its turn `N / k` times, rounded down or
up. -/
theorem count_turns {k j : Nat} (hj : j < k) (first N : Nat) :
    N.count (fun i => (first + i) % k = j) = N / k ∨
      N.count (fun i => (first + i) % k = j) = (N + k - 1) / k := by
  have hk : 0 < k := by omega
  have hround : first + (j + (k - first % k)) ≡ j [MOD k] := by
    have hfirst := Nat.div_add_mod first k
    have hlt := Nat.mod_lt first hk
    have hsum : first + (j + (k - first % k)) = j + k * (first / k + 1) := by
      rw [Nat.mul_add]
      omega
    rw [hsum]
    exact Nat.add_mul_mod_self_left j k _
  have hclass : ∀ i, (first + i) % k = j ↔ i ≡ j + (k - first % k) [MOD k] := by
    intro i
    rw [show (first + i) % k = j ↔ first + i ≡ j [MOD k] by rw [Nat.ModEq, Nat.mod_eq_of_lt hj]]
    exact ⟨fun h => (h.trans hround.symm).add_left_cancel' first,
      fun h => (h.add_left first).trans hround⟩
  simp only [hclass]
  rw [Nat.count_modEq_card N hk]
  split
  · right
    have hN := Nat.div_add_mod N k
    have hlt := Nat.mod_lt N hk
    refine (Nat.div_eq_of_lt_le ?_ ?_).symm
    · rw [Nat.add_one_mul, Nat.mul_comm]
      omega
    · rw [Nat.add_one_mul, Nat.add_one_mul, Nat.mul_comm]
      omega
  · exact .inl rfl

/-- Selections in a row: the counter that one of them finds is the one that the selection before
has left, and all of them find the same slots. -/
structure Row (looks : Nat → Look) (id : String) (grace : Int) (E : Finset (String × Ref))
    (rr N : Nat) : Prop where
  eligible : ∀ i < N, ((looks i).eligible id).toFinset = E
  first : (looks 0).rr id = some rr
  next : ∀ i, i + 1 < N → (looks (i + 1)).rr id =
    (((looks i).session id grace).2.entries.lookup id).map Entry.rr

section Turns

variable {looks : Nat → Look} {id : String} {grace : Int} {E : Finset (String × Ref)} {rr N : Nat}

theorem Row.counter (h : Row looks id grace E rr N) (hE : E.Nonempty) {i : Nat} (hi : i < N) :
    ∃ n, (looks i).rr id = some n ∧ n % 2 ^ 31 = (rr + i) % 2 ^ 31 := by
  induction i with
  | zero => exact ⟨rr, h.first, rfl⟩
  | succ i ih =>
    obtain ⟨n, hn, hmod⟩ := ih (by omega)
    have hne : (looks i).eligible id ≠ [] := by
      rintro hnil
      rw [← h.eligible i (by omega), hnil] at hE
      simp at hE
    refine ⟨_, (h.next i hi).trans (Look.rr_session hn hne grace), ?_⟩
    omega

theorem Row.turns (h : Row looks id grace E rr N) (hrr : rr % 2 ^ 31 + N ≤ 2 ^ 31)
    {x : String × Ref} (hx : x ∈ E) :
    N.count (fun i => (looks i).chosen id = some x) = N / E.card ∨
      N.count (fun i => (looks i).chosen id = some x) = (N + E.card - 1) / E.card := by
  rcases Nat.eq_zero_or_pos N with rfl | hN
  · simp
  have hnodup : ((looks 0).eligible id).Nodup := .of_map _ Look.nodup_eligible
  have hcard : E.card = ((looks 0).eligible id).length := by
    rw [← h.eligible 0 hN, toFinset_card_of_nodup hnodup]
  have hmem := hx
  rw [← h.eligible 0 hN, mem_toFinset] at hmem
  obtain ⟨j, hj, rfl⟩ := getElem_of_mem hmem
  rw [hcard]
  have hturn : ∀ i < N, (looks i).chosen id = some ((looks 0).eligible id)[j] ↔
      (rr % 2 ^ 31 + i) % ((looks 0).eligible id).length = j := by
    intro i hi
    obtain ⟨n, hn, hmod⟩ := h.counter ⟨_, hx⟩ hi
    have hlt := Nat.mod_lt (rr % 2 ^ 31 + i) (Nat.zero_lt_of_lt hj)
    rw [Look.chosen_eq hn, hmod, show (rr + i) % 2 ^ 31 = rr % 2 ^ 31 + i by omega,
      Look.eligible_eq ((h.eligible i hi).trans (h.eligible 0 hN).symm),
      List.getElem?_eq_getElem hlt, Option.some_inj, hnodup.getElem_inj_iff]
  have hcount : N.count (fun i => (looks i).chosen id = some ((looks 0).eligible id)[j]) =
      N.count fun i => (rr % 2 ^ 31 + i) % ((looks 0).eligible id).length = j := by
    rw [Nat.count_eq_card_filter_range, Nat.count_eq_card_filter_range]
    exact congrArg _ (Finset.filter_congr fun i hi => hturn i (Finset.mem_range.mp hi))
  rw [hcount]
  exact count_turns hj _ N

end Turns

/-- A cluster with an open session is routed to one, and to one that can reach Prometheus if there
is one. In `N` selections in a row from the same slots, while the counter crosses no multiple of
`2 ^ 31`, each slot is chosen `N / k` times, rounded down or up. -/
theorem sessions_are_chosen_soundly_and_fairly (id : String) (grace : Int) :
    (∀ v : Look, (∃ key sl, v.reg.Open v.gone id key sl) →
      ∃ key ref sl, (v.session id grace).1 = .ok sl.session ∧ v.chosen id = some (key, ref) ∧
        v.reg.heap[ref]? = some sl ∧ v.reg.Best v.gone id key sl) ∧
    ∀ (looks : Nat → Look) (E : Finset (String × Ref)) (rr N : Nat),
      Row looks id grace E rr N → rr % 2 ^ 31 + N ≤ 2 ^ 31 →
      ∀ x ∈ E, let turns := N.count fun i => (looks i).chosen id = some x
        turns = N / E.card ∨ turns = (N + E.card - 1) / E.card := by
  refine ⟨fun v ⟨key, sl, hopen⟩ => ?_, fun looks E rr N h hrr x hx => h.turns hrr hx⟩
  obtain ⟨e, he⟩ : ∃ e, v.reg.entries.lookup id = some e := by
    obtain ⟨ref, hocc, -⟩ := hopen
    obtain ⟨e, he, -⟩ := Option.bind_eq_some_iff.mp hocc
    exact ⟨e, he⟩
  obtain ⟨ref, hlive⟩ := (exists_live_iff (o := v.orders) he).mpr hopen
  obtain ⟨x, hx, hpick, hsession⟩ :=
    session_eq he (eligible_ne_nil (ne_nil_of_mem hlive)) grace v.now
  refine ⟨x.1, x.2.1, x.2.2, by rw [Look.session, hsession], by simp [Look.chosen, he, hpick],
    (mem_live.mp (mem_eligible.mp hx).1).2.1, best_of_eligible he hx⟩

/-- Two pods of the cluster "east". -/
def twoPods : Reg where
  heap := [⟨⟨"east", "a", 0, "one"⟩, 1, "fp", "a", fleet.Cluster.zero, ∅⟩,
    ⟨⟨"east", "b", 0, "two"⟩, 1, "fp", "b", fleet.Cluster.zero, ∅⟩]
  entries := Finmap.singleton "east"
    ⟨(Finmap.singleton "one" 0).insert "two" 1, 0, fleet.Cluster.zero⟩
  closed := false
  anonSeq := 0

/-- Each selection is followed by a poll of the facts, which leaves the slots in their places. -/
def lookAt : Nat → Look
  | 0 => ⟨twoPods, ⟨ascending, ascending⟩, 0, fun _ => false⟩
  | i + 1 =>
    let reg := ((lookAt i).session "east" 10).2
    let seen (sl : Slot) : Slot := { sl with facts := { sl.facts with lastSeen := i } }
    ⟨{ reg with heap := reg.heap.map seen }, ⟨ascending, ascending⟩, i, fun _ => false⟩

theorem two_pods_take_turns : Row lookAt "east" 10 {("one", 0), ("two", 1)} 0 4 ∧
    Nat.count (fun i => (lookAt i).chosen "east" = some ("one", 0)) 4 = 2 := by
  have hrow : Row lookAt "east" 10 {("one", 0), ("two", 1)} 0 4 :=
    ⟨by decide +kernel, rfl, fun _ _ => rfl⟩
  refine ⟨hrow, ?_⟩
  have hturns := (sessions_are_chosen_soundly_and_fairly "east" 10).2 lookAt _ 0 4 hrow (by decide)
    ("one", 0) (by decide)
  rcases hturns with h | h <;> exact h.trans (by decide)

/-! ## In a run -/

section Run

variable {ι : Type} [DecidableEq ι] {cfg : Config} {t₀ : Int} {calls : ι → Request}
  {ls : List (ι × Env)} {c : Conf RegAns ι (Int × World ι) Reply}
  (hrun : run (regMachine cfg) (system cfg t₀ calls) ls = some c)

include hrun

/-- What `Session` gives for a cluster, with any value of the counter, is an open session from the
pool of that cluster, with a certificate of the cluster. -/
theorem sessions_are_those_of_the_cluster {o : Orders} {now : Int} {gone : Ref → Bool} (rr : Nat)
    {id : String} {s : Session}
    (h : ((c.shared.2.reg.withCursor id rr).session cfg.grace o now gone id).1 = .ok s) :
    s.identity.clusterID = id ∧
      ∃ key sl, c.shared.2.reg.Open gone id key sl ∧ sl.session = s := by
  cases he : c.shared.2.reg.entries.lookup id with
  | none => simp [Reg.withCursor, Reg.session, he] at h
  | some e =>
    have hcursor : c.shared.2.reg.withCursor id rr = { c.shared.2.reg with
        entries := c.shared.2.reg.entries.insert id { e with rr := rr % 2 ^ 64 } } := by
      simp only [Reg.withCursor, he]
    rw [hcursor, Reg.session, Finmap.lookup_insert] at h
    dsimp only at h
    split at h
    · cases h
    split at h
    · cases h
    rename_i x hx
    cases h
    -- the slots of the entry are those of the registry, whatever the counter is
    have hlive := mem_live.mp (mem_eligible.mp (mem_of_getElem? hx)).1
    have hocc := (Reg.occupant_of_lookup he).trans hlive.1
    obtain ⟨sl, hsl, hid⟩ := (run_sound hrun).1.live hocc
    obtain rfl : x.2.2 = sl := Option.some.inj (hlive.2.1.symm.trans hsl)
    exact ⟨hid, x.1, x.2.2, ⟨x.2.1, hocc, hsl, hlive.2.2⟩, rfl⟩

/-- A listing has the clusters that it is about as `Cluster` gives them, and no other ones. -/
theorem listings_have_what_lookups_give (o : Orders) (now : Int) (keep : fleet.Cluster → Bool)
    (x : fleet.Cluster) : x ∈ c.shared.2.reg.filter cfg.grace o now keep ↔
      keep x = true ∧ c.shared.2.reg.cluster cfg.grace o now x.id = some x := by
  constructor
  · intro hx
    exact ⟨(mem_filter.mp hx).1, ((run_sound hrun).1.cluster_of_filter hx).1⟩
  · rintro ⟨hkeep, hx⟩
    exact mem_filter.mpr ⟨hkeep, _, cluster_eq_some.mp hx⟩

end Run

def CameBack (c : Conf RegAns (Fin 4) (Int × World (Fin 4)) Reply) : Prop :=
  run (regMachine bareConfig) (system bareConfig 0 comeback) (comebackRun.take 11) = some c

/-- A call for its cluster goes to it. -/
theorem a_call_goes_to_the_pod_that_came_back : ∃ c s, CameBack c ∧
    ((c.shared.2.reg.withCursor "east" 0).session 10 ⟨ascending, ascending⟩ 6 (fun _ => false)
      "east").1 = .ok s ∧ s.identity.clusterID = "east" := by
  obtain ⟨c, s, hrun, hs⟩ : ∃ c s, CameBack c ∧ ((c.shared.2.reg.withCursor "east" 0).session 10
      ⟨ascending, ascending⟩ 6 (fun _ => false) "east").1 = .ok s := ⟨_, _, rfl, rfl⟩
  exact ⟨c, s, hrun, hs, (sessions_are_those_of_the_cluster hrun 0 hs).1⟩

/-- A listing shows it. -/
theorem the_pod_that_came_back_is_listed : ∃ c x, CameBack c ∧ x.id = "east" ∧
    x ∈ c.shared.2.reg.filter 10 ⟨ascending, ascending⟩ 6 fun _ => true := by
  obtain ⟨c, x, hrun, hx, hid⟩ : ∃ c x, CameBack c ∧
      c.shared.2.reg.cluster 10 ⟨ascending, ascending⟩ 6 "east" = some x ∧ x.id = "east" :=
    ⟨_, _, rfl, rfl, rfl⟩
  rw [← hid] at hx
  exact ⟨c, x, hrun, hid, (listings_have_what_lookups_give hrun _ _ _ x).mpr ⟨rfl, hx⟩⟩

end prom_fleet.registry
