-- The laws of the coverage table: in every run of the dials of an endpoint it counts the
-- tunnels that they hold, and what the signals of the endpoint show of it.
import PromFleet.Coverage
import Mathlib.Data.Set.Card

namespace prom_fleet.coverage

open interleave publish List Finmap Finset

variable {ι : Type} [DecidableEq ι] {endpoint : String}

/-! ## The table -/

namespace Coverage

variable {c : Coverage} {id id' : String} {n : Int}

@[simp] theorem live_learn : (c.learn n).live = c.live := by
  unfold learn
  dsimp only
  split_ifs <;> rfl

@[simp] theorem count_learn : (c.learn n).count id = c.count id := by
  simp [count]

theorem count_insert (x : Nat) : ({ c with live := c.live.insert id x } : Coverage).count id' =
      if id' = id then x else c.count id' := by
  unfold count
  by_cases h : id' = id
  · subst h
    simp
  · simp [h, lookup_insert_of_ne]

theorem count_erase : ({ c with live := c.live.erase id } : Coverage).count id' =
      if id' = id then 0 else c.count id' := by
  unfold count
  by_cases h : id' = id
  · subst h
    simp
  · simp [h, lookup_erase_ne]

theorem count_join :
    (c.join id n).2.count id' = if id' = id then c.count id + 1 else c.count id' := by
  unfold join
  simp only [count_insert, count_learn]

theorem join_duplicate : (c.join id n).1 = decide (0 < c.count id) := by
  simp [join]

theorem count_leave :
    (c.leave id).count id' = if id' = id then c.count id - 1 else c.count id' := by
  unfold leave
  split
  · rename_i hle
    rw [count_erase]
    by_cases h : id' = id
    · simp only [h, if_true]
      omega
    · simp only [h, if_false]
  · rw [count_insert]

/-- A replica on the table has a tunnel. -/
def Positive (c : Coverage) : Prop := ∀ id ∈ c.live, 0 < c.count id

theorem Positive.join (h : c.Positive) : (c.join id n).2.Positive := by
  intro id' hmem
  rw [count_join]
  by_cases heq : id' = id
  · simp [heq]
  rw [if_neg heq]
  refine h id' ?_
  simpa [Coverage.join, heq] using hmem

theorem Positive.leave (h : c.Positive) : (c.leave id).Positive := by
  intro id' hmem
  rw [count_leave]
  unfold Coverage.leave at hmem
  by_cases heq : id' = id
  · subst heq
    rw [if_pos rfl]
    split at hmem
    · simp at hmem
    · omega
  · rw [if_neg heq]
    refine h id' ?_
    split at hmem
    · simpa [heq] using hmem
    · simpa [heq] using hmem

theorem Positive.covered_eq_zero (h : c.Positive) (hzero : ∀ id, c.count id = 0) :
    c.state.1 = 0 := by
  unfold state
  rw [card_eq_zero, eq_empty_iff_forall_notMem]
  intro id hid
  have hpos := h id (mem_keys.mp hid)
  rw [hzero id] at hpos
  omega

end Coverage

/-! ## What a dial may do -/

/-- The operations that a dial may come to next. It joins once, leaves the replica that it has
joined, and publishes what it has read. -/
def Phase.may (endpoint : String) (m : Phase) : Op → Prop
  | .join _ _ => m = ⟨none, .clear⟩
  | .leave id => m = ⟨some id, .clear⟩
  | .state => m.stage = .altered ∨ m.stage = .counted
  | .setTunnelsCovered n => ∃ want, m.stage = .seen n want
  | .setTunnelUp n => ∃ covered want, m.stage = .derived covered want ∧ n = upGauge covered
  | .setHealth ok message => ∃ covered want, m.stage = .raised covered want ∧
      (ok, message) = tunnelHealth endpoint covered want
  | _ => m.stage = .clear

theorem publishCoverage_obeys (joined : Option String) :
    (publishCoverage endpoint).Obeys Phase.next (Phase.may endpoint)
      (fun m _ => m = ⟨joined, .clear⟩) ⟨joined, .altered⟩ := by
  refine ⟨Or.inl rfl, fun r => ⟨⟨r.2, rfl⟩, fun _ => ⟨Or.inr rfl, fun r' => ?_⟩⟩⟩
  refine ⟨⟨r'.1, r'.2, rfl, rfl⟩, fun _ => ⟨⟨r'.1, r'.2, rfl, rfl⟩, fun _ => rfl⟩⟩

theorem onConnected_obeys (hub : HubInfo) :
    (onConnected endpoint hub).Obeys Phase.next (Phase.may endpoint)
      (fun m _ => m = ⟨some hub.serverID, .clear⟩) ⟨none, .clear⟩ := by
  refine ⟨rfl, fun _ => ⟨rfl, fun duplicate => ?_⟩⟩
  exact (publishCoverage_obeys (some hub.serverID)).bind fun _ _ h => h

theorem deferredLeave_obeys (id : String) :
    (deferredLeave endpoint id).Obeys Phase.next (Phase.may endpoint)
      (fun m _ => m.stage = .clear ∧ (m.joined = none ∨ m.joined = some "")) ⟨some id, .clear⟩ := by
  unfold deferredLeave
  split
  · refine ⟨rfl, fun _ => ?_⟩
    refine (publishCoverage_obeys none).mono (fun _ _ h => h) ?_
    rintro _ _ rfl
    exact ⟨rfl, Or.inl rfl⟩
  · rename_i hempty
    rw [not_not] at hempty
    subst hempty
    exact ⟨rfl, Or.inr rfl⟩

/-- A dial that returns has published all, and has left its replica, if that one has a name. -/
theorem dialOnce_obeys : (dialOnce endpoint).Obeys Phase.next (Phase.may endpoint)
      (fun m _ => m.stage = .clear ∧ (m.joined = none ∨ m.joined = some "")) ⟨none, .clear⟩ := by
  refine ⟨rfl, fun found => ?_⟩
  cases found with
  | false => exact ⟨rfl, Or.inl rfl⟩
  | true =>
    refine ⟨rfl, fun answer => ?_⟩
    cases answer with
    | error reason => exact ⟨rfl, Or.inl rfl⟩
    | ok hub =>
      refine (onConnected_obeys hub).bind ?_
      rintro _ _ rfl
      refine ⟨rfl, fun reason => ?_⟩
      exact (deferredLeave_obeys hub.serverID).bind fun _ _ h => h

/-! ## One step -/

variable {i j : ι} {log : List (ι × Event Ans Env World)} {ev : Event Ans Env World}

theorem phase_concat_self : phase i (log ++ [(i, ev)]) = (phase i log).next ev.op ev.ans := by
  unfold phase
  rw [own_append_self, outcome_concat]

theorem phase_concat_of_ne (h : i ≠ j) : phase j (log ++ [(i, ev)]) = phase j log := by
  unfold phase
  rw [own_append_of_ne h]

variable {id : String}

theorem connected_concat : Connected j id (log ++ [(i, ev)]) ↔
    if j = i then ((phase i log).next ev.op ev.ans).joined = some id else Connected j id log := by
  unfold Connected
  by_cases hij : j = i
  · rw [hij, phase_concat_self, if_pos rfl]
  · rw [phase_concat_of_ne (Ne.symm hij), if_neg hij]

variable {o : Op} {e : Env} {a : Ans o} {s t : World × List (ι × Event Ans Env World)}

omit [DecidableEq ι] in
theorem machine_act (h : (machine ι).act i o e s = some (a, t)) :
    act o e s.1 = (a, t.1) ∧ t.2 = s.2 ++ [(i, ⟨o, e, a, s.1, t.1⟩)] := by
  obtain ⟨hact, hlog⟩ := recorded_act h
  exact ⟨Option.some.inj hact, hlog⟩

/-- The operations that change the table. -/
def Op.alters : Op → Bool
  | .join _ _ => true
  | .leave _ => true
  | _ => false

omit [DecidableEq ι] in
theorem cov_of_not_alters (h : (machine ι).act i o e s = some (a, t)) (ho : o.alters = false) :
    t.1.cov = s.1.cov := by
  obtain ⟨hact, _⟩ := machine_act h
  have ht : t.1 = (act o e s.1).2 := by rw [hact]
  rw [ht]
  cases o <;> first | rfl | cases ho

theorem joined_of_not_alters {m : Phase} (ho : o.alters = false) :
    (m.next o a).joined = m.joined := by
  cases o <;> first | rfl | cases ho

/-! ## The tunnels on the table -/

/-- The joins on the record were told what the dials before them held. -/
def Told (log : List (ι × Event Ans Env World)) : Prop :=
  ∀ pre i id n e duplicate w w' post,
    log = pre ++ (i, ⟨.join id n, e, duplicate, w, w'⟩) :: post →
    (duplicate = true ↔ ∃ j, j ≠ i ∧ Connected j id pre)

/-- An entry of a list with one more entry is that one, or an entry of the list. -/
theorem concat_eq_append_cons {X : Type} {xs pre post : List X} {x y : X}
    (h : xs ++ [x] = pre ++ y :: post) : (xs = pre ∧ x = y) ∨ ∃ post', xs = pre ++ y :: post' := by
  rcases eq_nil_or_concat post with rfl | ⟨post', z, rfl⟩
  · obtain ⟨h1, h2⟩ := append_inj' h rfl
    exact .inl ⟨h1, head_eq_of_cons_eq h2⟩
  · rw [concat_eq_append, ← cons_append, ← append_assoc] at h
    exact .inr ⟨post', (append_inj' h rfl).1⟩

theorem Told.concat (h : Told log)
    (hnew : ∀ id n e duplicate w w', ev = ⟨.join id n, e, duplicate, w, w'⟩ →
      (duplicate = true ↔ ∃ j, j ≠ i ∧ Connected j id log)) : Told (log ++ [(i, ev)]) := by
  intro pre k id n e duplicate w w' post hpost
  rcases concat_eq_append_cons hpost with ⟨rfl, hlast⟩ | ⟨post', hold⟩
  · obtain ⟨rfl, hev⟩ := Prod.mk.inj hlast
    exact hnew id n e duplicate w w' hev
  · exact h pre k id n e duplicate w w' post' hold

/-- The table counts the tunnels that the dials hold. -/
structure Mirrors (s : World × List (ι × Event Ans Env World)) : Prop where
  counts : ∀ id, {i | Connected i id s.2}.encard = s.1.cov.count id
  positive : s.1.cov.Positive
  named : ∀ i, ¬Connected i "" s.2
  told : Told s.2

/-- The table has a tunnel to the replica just when some dial is connected to it. -/
theorem Mirrors.count_pos (hs : Mirrors s) : 0 < s.1.cov.count id ↔ ∃ j, Connected j id s.2 := by
  have hcount := hs.counts id
  constructor
  · intro hpos
    by_contra hnone
    have hempty : {i | Connected i id s.2} = ∅ := by
      rw [Set.eq_empty_iff_forall_notMem]
      exact fun j hj => hnone ⟨j, hj⟩
    rw [hempty, Set.encard_empty] at hcount
    have : s.1.cov.count id = 0 := by exact_mod_cast hcount.symm
    omega
  · rintro ⟨j, hj⟩
    have hpos : 0 < {i | Connected i id s.2}.encard := Set.encard_pos.mpr ⟨j, hj⟩
    rw [hcount] at hpos
    exact_mod_cast hpos

theorem Mirrors.quiet (hs : Mirrors s) (ho : o.alters = false)
    (h : (machine ι).act i o e s = some (a, t)) : Mirrors t := by
  obtain ⟨_, hlog⟩ := machine_act h
  have hcov := cov_of_not_alters h ho
  have hsame : ∀ j id, Connected j id t.2 ↔ Connected j id s.2 := by
    intro j id
    rw [hlog, connected_concat, joined_of_not_alters ho]
    by_cases hij : j = i <;> simp [hij, Connected]
  refine ⟨fun id => ?_, ?_, fun j => ?_, ?_⟩
  · simp only [hsame, hcov]
    exact hs.counts id
  · rw [hcov]
    exact hs.positive
  · rw [hsame]
    exact hs.named j
  rw [hlog]
  refine hs.told.concat fun id n e' duplicate w w' hev => ?_
  cases hev
  cases ho

theorem Mirrors.join {n : Int} {duplicate : Bool} (hs : Mirrors s)
    (hmay : phase i s.2 = ⟨none, .clear⟩) (hname : id ≠ "")
    (h : (machine ι).act i (.join id n) e s = some (duplicate, t)) : Mirrors t := by
  obtain ⟨hact, hlog⟩ := machine_act h
  obtain ⟨hdup, hworld⟩ := Prod.mk.inj hact
  have hcov : t.1.cov = (s.1.cov.join id n).2 := by rw [← hworld]
  have hnot : ∀ id', ¬Connected i id' s.2 := by simp [Connected, hmay]
  have hconnected : ∀ j id', Connected j id' t.2 ↔
      if j = i then id = id' else Connected j id' s.2 := by
    simp [hlog, connected_concat, Phase.next]
  refine ⟨fun id' => ?_, ?_, fun j => ?_, ?_⟩
  · rw [hcov, Coverage.count_join]
    by_cases heq : id' = id
    · subst heq
      have hset : {j | Connected j id' t.2} = insert i {j | Connected j id' s.2} := by
        ext j
        by_cases hij : j = i <;> simp [hconnected, hij]
      have hmem : i ∉ {j | Connected j id' s.2} := hnot id'
      rw [hset, Set.encard_insert_of_notMem hmem, hs.counts, if_pos rfl]
      rfl
    · have hset : {j | Connected j id' t.2} = {j | Connected j id' s.2} := by
        ext j
        by_cases hij : j = i <;> simp [hconnected, hij, hnot, Ne.symm heq]
      rw [hset, hs.counts, if_neg heq]
  · rw [hcov]
    exact hs.positive.join
  · rw [hconnected]
    split
    · exact hname
    · exact hs.named j
  · rw [hlog]
    refine hs.told.concat fun id' n' e' duplicate' w w' hev => ?_
    cases hev
    rw [← hdup, Coverage.join_duplicate, decide_eq_true_eq, hs.count_pos]
    constructor
    · rintro ⟨j, hj⟩
      refine ⟨j, ?_, hj⟩
      rintro rfl
      exact hnot _ hj
    · rintro ⟨j, _, hj⟩
      exact ⟨j, hj⟩

theorem Mirrors.leave {a : Unit} (hs : Mirrors s) (hmay : phase i s.2 = ⟨some id, .clear⟩)
    (h : (machine ι).act i (.leave id) e s = some (a, t)) : Mirrors t := by
  obtain ⟨hact, hlog⟩ := machine_act h
  have hcov : t.1.cov = s.1.cov.leave id := by rw [← (Prod.mk.inj hact).2]
  have hhere : ∀ id', Connected i id' s.2 ↔ id = id' := by simp [Connected, hmay]
  have hconnected : ∀ j id', Connected j id' t.2 ↔ j ≠ i ∧ Connected j id' s.2 := by
    simp [hlog, connected_concat, Phase.next]
  refine ⟨fun id' => ?_, ?_, fun j => ?_, ?_⟩
  · rw [hcov, Coverage.count_leave]
    by_cases heq : id' = id
    · subst heq
      have hset : {j | Connected j id' t.2} = {j | Connected j id' s.2} \ {i} := by
        ext j
        simp [hconnected, and_comm]
      have hmem : i ∈ {j | Connected j id' s.2} := (hhere id').mpr rfl
      rw [hset, Set.encard_sdiff_singleton_of_mem hmem, hs.counts, if_pos rfl]
      rfl
    · have hset : {j | Connected j id' t.2} = {j | Connected j id' s.2} := by
        ext j
        by_cases hij : j = i <;> simp [hconnected, hij, hhere, Ne.symm heq]
      rw [hset, hs.counts, if_neg heq]
  · rw [hcov]
    exact hs.positive.leave
  · exact fun hc => hs.named j ((hconnected j "").mp hc).2
  · rw [hlog]
    refine hs.told.concat fun id' n' e' duplicate w w' hev => ?_
    cases hev

def Op.named : Op → Bool
  | .join id _ => decide (id ≠ "")
  | _ => true

theorem Mirrors.step (hmay : (phase i s.2).may endpoint o) (hname : o.named = true)
    (hs : Mirrors s) (h : (machine ι).act i o e s = some (a, t)) : Mirrors t := by
  cases o with
  | join id n => exact hs.join hmay (of_decide_eq_true hname) h
  | leave id => exact hs.leave hmay h
  | _ => exact hs.quiet rfl h

theorem mirrors_start (discover : Bool) : Mirrors (start ι discover endpoint).shared where
  counts id := by
    have hempty : {i : ι | Connected i id []} = ∅ := by
      ext j
      simp [Connected, phase, outcome]
    simp [start, hempty, newCoverage, Coverage.count]
  positive id hid := absurd hid notMem_empty
  named j := by simp [start, Connected, phase, outcome]
  told := by
    intro pre _ _ _ _ _ _ _ _ h
    simp [start] at h

/-- As long as every replica that is joined has a name, after every step of every run the table
counts for each replica the dials that are connected to it. The endpoint covers no replica just when
no dial is connected, and a dial is told that it is a duplicate just when another one is connected
to its replica. -/
theorem the_table_counts_the_tunnels_held (discover : Bool) (endpoint : String)
    (ls : List (ι × Env)) {c : Conf Ans ι (World × List (ι × Event Ans Env World)) String}
    (hrun : run (machine ι) (start ι discover endpoint) ls = some c)
    (hnamed : Meets (machine ι) (fun _ o _ _ => o.named = true) (start ι discover endpoint) ls) :
    (∀ id, {i | Connected i id c.shared.2}.encard = c.shared.1.cov.count id) ∧
    (∀ i reason, c.thread i = .done reason → ∀ id, ¬Connected i id c.shared.2) ∧
    (c.shared.1.cov.state.1 = 0 ↔ ∀ i id, ¬Connected i id c.shared.2) ∧
    Told c.shared.2 := by
  have hobeys : ∀ j : ι, ((start ι discover endpoint).thread j).Obeys Phase.next
      (Phase.may endpoint) (fun m _ => m.stage = .clear ∧ (m.joined = none ∨ m.joined = some ""))
      (phase j (start ι discover endpoint).shared.2) := fun _ => dialOnce_obeys
  have hmay := (meets_obeys ls hobeys).and hnamed
  have hs : Mirrors c.shared := by
    refine run_keeps ?_ (mirrors_start discover) hmay hrun
    intro i o e s a t hcond hs hact
    exact hs.step hcond.1 hcond.2 hact
  refine ⟨hs.counts, ?_, ?_, hs.told⟩
  · intro i reason hdone id hconn
    have hend := run_obeys hobeys hrun i
    rw [hdone] at hend
    rcases hend.2 with hnone | hempty
    · unfold Connected phase at hconn
      rw [hnone] at hconn
      cases hconn
    · exact hs.named i hempty
  · constructor
    · intro hzero i id hconn
      have hpos := hs.count_pos.mpr ⟨i, hconn⟩
      unfold Coverage.state at hzero
      rw [card_eq_zero] at hzero
      have hlookup : c.shared.1.cov.live.lookup id = none := by
        rw [Finmap.lookup_eq_none, ← Finmap.mem_keys, hzero]
        exact notMem_empty id
      unfold Coverage.count at hpos
      rw [hlookup] at hpos
      exact absurd hpos (by decide)
    · intro hnone
      refine hs.positive.covered_eq_zero fun id => ?_
      by_contra hne
      obtain ⟨j, hj⟩ := hs.count_pos.mp (Nat.pos_of_ne_zero hne)
      exact hnone j id hj

/-- A hub replica that has an identity for the spoke, and says hello. -/
def answering (serverID : String) (replicas : Int) : Env :=
  { identity := true, dial := .ok ⟨serverID, replicas⟩, reason := "closed" }

/-- So many steps of dial `i`, which meets the replica. -/
def steps {n : Nat} (i : Fin n) (serverID : String) (k : Nat) : List (Fin n × Env) :=
  List.replicate k (i, answering serverID 2)

/-- Two dials come to one replica while none of them has ended. -/
def twoTunnels : List (Fin 2 × Env) := steps 0 "hub-0" 9 ++ steps 1 "hub-0" 4

theorem the_table_counts_two_tunnels_to_one_replica :
    ∃ c, run (machine (Fin 2)) (start (Fin 2) true "wss://hub") twoTunnels = some c ∧
      c.shared.1.cov.count "hub-0" = 2 ∧
      {i | Connected i "hub-0" c.shared.2}.encard = 2 := by
  refine ⟨_, rfl, by decide, ?_⟩
  exact (the_table_counts_the_tunnels_held true "wss://hub" twoTunnels rfl (by decide)).1 "hub-0"

/-- A dial that has joined a replica without a name does not leave it when it returns: the
endpoint still covers a replica, and the next dial is told that it is a duplicate. -/
theorem a_replica_without_a_name_stays_covered :
    ∃ c c', run (machine (Fin 2)) (start (Fin 2) true "wss://hub") (steps 0 "" 10) = some c ∧
      (c.thread 0).result = some "closed" ∧ own 1 c.shared.2 = [] ∧
      c.shared.1.cov.state.1 = 1 ∧ c.shared.1.signals.tunnelUp = some 1 ∧
      run (machine (Fin 2)) c (steps 1 "" 10) = some c' ∧
      (c'.thread 1).result = some reasonRedundantTunnel := by
  refine ⟨_, _, rfl, rfl, rfl, by decide, rfl, rfl, rfl⟩

end prom_fleet.coverage
