-- The laws of the session pools, over every interleaving of the calls: generations do not go
-- back, a late call of a replaced slot does nothing, siblings are left alone, an empty pool is
-- frozen, no session is lost, and a closed registry stays empty.
import PromFleet.RegistryCalls

namespace prom_fleet.registry

open interleave List Option map_range gotime fleet

section

variable {ι : Type} {cfg : Config} {env : Env} {o : RegOp} {a : RegAns o} {w : World ι} {r' : Reg}

/-! ## Generations -/

def Occupied (id key : String) (_ : ι) (_ : RegOp) (_ : Env) (s : Int × World ι) : Prop :=
  (s.2.reg.slotAt id key).isSome = true

variable {id key : String} {r : Reg} {x y : Slot}

theorem Change.generation_le (h : Change cfg env r o a r') (hx : r.slotAt id key = some x)
    (hy : r'.slotAt id key = some y) : x.generation ≤ y.generation := by
  obtain ⟨ref', hocc', hsl'⟩ := bind_eq_some_iff.mp hy
  obtain ⟨ref, hocc, hsl⟩ := bind_eq_some_iff.mp hx
  rcases h.occupant_inv hocc' with hold | ⟨sl, _, _, href, hheap, hgen⟩
  · rw [hocc] at hold
    cases hold
    obtain ⟨sl', hkept, _, hsame, _⟩ := h.slot_kept hsl
    rw [hsl'] at hkept
    cases hkept
    exact le_of_eq hsame.symm
  · rw [hheap, href] at hsl'
    have hnew : sl = y := by simpa using hsl'
    subst hnew
    exact hgen x hx

theorem generation_run [DecidableEq ι] {c c' : Conf RegAns ι (Int × World ι) Reply}
    {ls : List (ι × Env)} (hrun : run (regMachine cfg) c ls = some c')
    (hmeets : Meets (regMachine cfg) (Occupied id key) c ls)
    (hx : c.shared.2.reg.slotAt id key = some x) (hy : c'.shared.2.reg.slotAt id key = some y) :
    x.generation ≤ y.generation := by
  induction ls generalizing c x with
  | nil =>
    cases hrun
    rw [hx] at hy
    cases hy
    exact le_refl _
  | cons l ls ih =>
    obtain ⟨d, hd, hrun'⟩ := run_cons.mp hrun
    obtain ⟨o, k, a, _, hact, _⟩ := step_cases hd
    obtain ⟨_, _, hchange, _⟩ := act_cases hact
    -- the key is still occupied in the state after this step
    obtain ⟨z, hz⟩ : ∃ z, d.shared.2.reg.slotAt id key = some z := by
      cases ls with
      | nil =>
        cases hrun'
        exact ⟨y, hy⟩
      | cons l' ls' =>
        obtain ⟨_, hd', _⟩ := run_cons.mp hrun'
        obtain ⟨o', k', _, hk', _, _⟩ := step_cases hd'
        exact isSome_iff_exists.mp ((hmeets.2 d hd).1 o' k' hk')
    exact (hchange.generation_le hx hz).trans (ih hrun' (hmeets.2 d hd) hz)

/-! ## Late calls -/

variable {grace now : Int}

/-- A victim that does not occupy its key makes no difference to a teardown. -/
theorem closeVictims_skip (pre post : List Victim) (v : Victim) (r : Reg)
    (hv : r.occupant v.id v.key ≠ some v.slot) : Reg.closeVictims grace now (pre ++ v :: post) r =
      Reg.closeVictims grace now (pre ++ post) r := by
  induction pre generalizing r with
  | nil => rw [nil_append, nil_append, Reg.closeVictims, Reg.holder_eq_none hv]
  | cons w pre ih =>
    rw [cons_append, cons_append, Reg.closeVictims, Reg.closeVictims]
    cases hh : r.holder w.id w.key w.slot with
    | none => exact ih r hv
    | some p =>
      obtain ⟨e, sl⟩ := p
      obtain ⟨he, _, _⟩ := Reg.holder_eq_some.mp hh
      have hv' : (r.detachLocked grace w.id e w.key sl now).occupant v.id v.key ≠ some v.slot :=
        fun h => hv (Reg.occupant_of_detachLocked he h).2
      simp only [ih _ hv']

/-- A teardown does not touch an occupant that is not one of its victims. -/
theorem slotAt_closeVictims {vs : List Victim}
    (hvs : ∀ v ∈ vs, v.id = id → v.key = key → r.occupant id key ≠ some v.slot) :
    (Reg.closeVictims grace now vs r).2.slotAt id key = r.slotAt id key := by
  unfold Reg.slotAt
  rw [Reg.heap_closeVictims]
  rcases @Reg.occupant_closeVictims grace now vs r id key with h | ⟨_, v, hv, hid, hkey, hslot⟩
  · rw [h]
  · exact absurd hslot (hvs v (Reg.closeVictims_subset vs r hv) hid hkey)

/-! ## Siblings -/

variable {sl : Slot}

theorem Sound.slotAt_attach (hw : Sound cfg w) {id' key' : String}
    (hne : ¬(id' = sl.session.identity.clusterID ∧ key' = key)) :
    (w.reg.attach key sl).2.slotAt id' key' = w.reg.slotAt id' key' := by
  have hinstall : (w.reg.install sl.session.identity.clusterID key sl).slotAt id' key' =
      w.reg.slotAt id' key' := by
    unfold Reg.slotAt
    rw [Reg.occupant_install_of_ne hne]
    cases hocc : w.reg.occupant id' key' with
    | none => rfl
    | some ref =>
      obtain ⟨x, hx, _⟩ := hw.live hocc
      have hlt : ref < w.reg.heap.length := (List.getElem?_eq_some_iff.mp hx).1
      exact List.getElem?_append_left hlt
  unfold Reg.attach
  dsimp only
  split
  · rfl
  split
  · split
    · rfl
    · exact hinstall
  · exact hinstall

/-! ## Empty pools -/

/-- Each section that can empty a pool runs at the clock reading that its call has taken. -/
def Prompt (_ : ι) (o : RegOp) (e : Env) (_ : Int × World ι) : Prop :=
  reading o = none ∨ reading o = some e.now

instance (i : ι) (o : RegOp) (e : Env) (s : Int × World ι) : Decidable (Prompt i o e s) :=
  inferInstanceAs (Decidable (_ ∨ _))

/-- The frozen view of each empty pool says when the pool became empty. -/
def Dated (s : Int × World ι) : Prop :=
  ∀ id e, s.2.reg.entries.lookup id = some e → e.slots = ∅ →
    s.2.log.leftAt id = some e.lastCluster.lastSeen

variable {i : ι} {s t : Int × World ι}

theorem dated_step (hp : Prompt i o env s) (hs : Dated s)
    (h : (regMachine cfg).act i o env s = some (a, t)) : Dated t := by
  obtain ⟨_, hnow, hchange, hlog⟩ := act_cases h
  intro id e he hempty
  rw [hlog]
  rcases hchange.empty_cases he hempty with
    ⟨hold, hem⟩ | ⟨hem, key, ref, sl, now, _, _, hread, hlast⟩
  · simpa [Log.note, hem] using hs id e hold hempty
  have hread' : now = env.now := by
    rcases hp with hnone | hsome
    · rw [hread] at hnone
      cases hnone
    · rw [hread] at hsome
      exact Option.some.inj hsome
  simp [Log.note, hem, hlast, frozen, hread', hnow]

variable {e : Entry}

/-- `presentLocked` of an empty pool: the grace window has not gone by, as far as a
duration can count. -/
theorem present_iff_of_empty (hempty : e.slots = ∅) (now : Int) :
    presentLocked cfg.grace e now = true ↔
      min (now - e.lastCluster.lastSeen) maxDuration ≤ cfg.grace := by
  have hgrace : minDuration ≤ cfg.grace := by
    have h := cfg.grace_nonneg
    unfold minDuration
    omega
  unfold presentLocked timeSub
  rw [if_neg (not_not.mpr hempty), decide_eq_true_eq, min_comm]
  exact ⟨fun h => (le_max_right _ _).trans h, fun h => max_le hgrace h⟩

theorem cluster_isSome (he : r.entries.lookup id = some e) (orders : Orders) (now : Int) :
    (r.cluster cfg.grace orders now id).isSome = presentLocked cfg.grace e now := by
  unfold Reg.cluster
  rw [he]
  cases h : presentLocked cfg.grace e now <;> simp [h]

/-! ## Every session -/

theorem Sound.kept_in_pool (hw : Sound cfg w) {ref : Ref} (hsl : w.reg.heap[ref]? = some sl) :
    (∃ key, w.reg.occupant sl.session.identity.clusterID key = some ref) ∨
      ref ∈ w.log.released ∨ ref ∈ w.log.closing ∨ ∃ i, (i, ref) ∈ w.log.doomed := by
  rcases hw.kept ref (List.getElem?_eq_some_iff.mp hsl).1 with ⟨id, key, hocc⟩ | hrest
  · obtain ⟨sl', hsl', hid⟩ := hw.live hocc
    rw [hsl] at hsl'
    cases hsl'
    subst hid
    exact .inl ⟨key, hocc⟩
  · exact .inr hrest

/-! ## A closed registry -/

/-- The registry is closed and empty, and it has had `n` sessions. -/
def Shut (n : Nat) (s : Int × World ι) : Prop :=
  s.2.reg.closed = true ∧ s.2.reg.entries = ∅ ∧ s.2.reg.heap.length = n

theorem shut_step {n : Nat} (hs : Shut n s) (h : (regMachine cfg).act i o env s = some (a, t)) :
    Shut n t := by
  obtain ⟨hclosed, hentries, hlen⟩ := hs
  obtain ⟨_, _, hchange, _⟩ := act_cases h
  obtain ⟨h1, h2, h3⟩ := hchange.closed_kept hclosed hentries
  exact ⟨h1, h2, h3.trans hlen⟩

end

/-! ## The laws together -/

/-- What holds of the session pools at every point of every interleaving. -/
theorem session_pools_hold_in_every_run {ι : Type} [DecidableEq ι] (cfg : Config) (t₀ : Int)
    (calls : ι → Request) (ls : List (ι × Env)) (c : Conf RegAns ι (Int × World ι) Reply)
    (hrun : run (regMachine cfg) (system cfg t₀ calls) ls = some c) :
    -- while a key stays occupied, the generation of its occupant does not go down
    (∀ ls' c' id key x y, run (regMachine cfg) c ls' = some c' →
      Meets (regMachine cfg) (Occupied id key) c ls' →
      c.shared.2.reg.slotAt id key = some x → c'.shared.2.reg.slotAt id key = some y →
      x.generation ≤ y.generation) ∧
    -- a release or a refresh of a slot that does not occupy its key changes nothing
    (∀ i env id key ref u, c.shared.2.reg.occupant id key ≠ some ref →
      (∀ now x, (regMachine cfg).act i (.release id key ref now) env c.shared = some (x, u) →
        u.2.reg = c.shared.2.reg) ∧
      ∀ facts reported merged now x,
        (regMachine cfg).act i (.apply id key ref facts reported merged now) env c.shared =
          some (x, u) → u.2.reg = c.shared.2.reg) ∧
    -- a verdict about such a slot makes no difference, and no verdict touches the others
    (∀ pre post v now, c.shared.2.reg.occupant v.id v.key ≠ some v.slot →
      Reg.closeVictims cfg.grace now (pre ++ v :: post) c.shared.2.reg =
        Reg.closeVictims cfg.grace now (pre ++ post) c.shared.2.reg) ∧
    (∀ i env vs now x u id key,
      (regMachine cfg).act i (.closeVictims vs now) env c.shared = some (x, u) →
      (∀ v ∈ vs, v.id = id → v.key = key → c.shared.2.reg.occupant id key ≠ some v.slot) →
      u.2.reg.slotAt id key = c.shared.2.reg.slotAt id key) ∧
    -- an admission leaves the slots under the other keys alone
    (∀ i env key sl x u id' key',
      (regMachine cfg).act i (.attach key sl) env c.shared = some (x, u) →
      ¬(id' = sl.session.identity.clusterID ∧ key' = key) →
      u.2.reg.slotAt id' key' = c.shared.2.reg.slotAt id' key') ∧
    -- an empty pool is frozen at the time its last slot left, and is present for the grace window
    (∀ id e, c.shared.2.reg.entries.lookup id = some e → e.slots = ∅ →
      e.lastCluster.state = .disconnected ∧
      (∃ left, c.shared.2.log.leftAt id = some left ∧ e.lastCluster.lastSeen ≤ left ∧
        (Meets (regMachine cfg) Prompt (system cfg t₀ calls) ls → e.lastCluster.lastSeen = left)) ∧
      ∀ orders now, (c.shared.2.reg.cluster cfg.grace orders now id).isSome = true ↔
        min (now - e.lastCluster.lastSeen) maxDuration ≤ cfg.grace) ∧
    -- an admitted session is in its pool, released, closed, or about to be closed by a call
    (∀ ref sl, c.shared.2.reg.heap[ref]? = some sl →
      (∃ key, c.shared.2.reg.occupant sl.session.identity.clusterID key = some ref) ∨
        ref ∈ c.shared.2.log.released ∨ ref ∈ c.shared.2.log.closing ∨
        ∃ i, (i, ref) ∈ c.shared.2.log.doomed ∧ ∀ x, c.thread i ≠ .done x) ∧
    -- a closed registry is empty, stays so, and admits no session
    (c.shared.2.reg.closed = true →
      (∀ ls' c', run (regMachine cfg) c ls' = some c' → Shut c.shared.2.reg.heap.length c'.shared) ∧
      ∀ i env key sl x u, (regMachine cfg).act i (.attach key sl) env c.shared = some (x, u) →
        x = .error (.rejected .closed)) := by
  obtain ⟨hsound, hpaid⟩ := run_sound hrun
  refine ⟨?_, ?_, ?_, ?_, ?_, ?_, ?_, ?_⟩
  · intro ls' c' id key x y hrun' hmeets hx hy
    exact generation_run hrun' hmeets hx hy
  · intro i env id key ref u hocc
    have hnone := Reg.holder_eq_none hocc
    constructor
    · intro now x hact
      obtain ⟨_, _, hact'⟩ := clocked_act hact
      have hreg : c.shared.2.reg.release cfg.grace id key ref now = u.2.reg :=
        congrArg (fun p => p.2.reg) (Option.some.inj hact')
      rw [← hreg, Reg.release, hnone]
    · intro facts reported merged now x hact
      obtain ⟨_, _, hact'⟩ := clocked_act hact
      have hreg : c.shared.2.reg.apply id key ref facts reported merged now = u.2.reg :=
        congrArg (fun p => p.2.reg) (Option.some.inj hact')
      rw [← hreg, Reg.apply, hnone]
  · intro pre post v now hv
    exact closeVictims_skip pre post v _ hv
  · intro i env vs now x u id key hact hvs
    obtain ⟨_, _, hact'⟩ := clocked_act hact
    have hreg : (Reg.closeVictims cfg.grace now vs c.shared.2.reg).2 = u.2.reg :=
      congrArg (fun p => p.2.reg) (Option.some.inj hact')
    rw [← hreg]
    exact slotAt_closeVictims hvs
  · intro i env key sl x u id' key' hact hne
    obtain ⟨_, _, hact'⟩ := clocked_act hact
    have hreg : (c.shared.2.reg.attach key sl).2 = u.2.reg :=
      congrArg (fun p => p.2.reg) (Option.some.inj hact')
    rw [← hreg]
    exact hsound.slotAt_attach hne
  · intro id e he hempty
    obtain ⟨_, hstate, left, hleft, hle⟩ := hsound.frozen he hempty
    refine ⟨hstate, ⟨left, hleft, hle, fun hmeets => ?_⟩, fun orders now => ?_⟩
    · have hdated : Dated c.shared :=
        run_keeps (fun _ _ _ _ _ _ hp hs h => dated_step hp hs h)
          (fun id e he => by simp [system, empty] at he) hmeets hrun
      have h := hdated id e he hempty
      rw [hleft] at h
      exact (Option.some.inj h).symm
    · rw [cluster_isSome he, present_iff_of_empty hempty]
  · intro ref sl hsl
    rcases hsound.kept_in_pool hsl with hpool | hrel | hclose | ⟨i, hdoom⟩
    · exact .inl hpool
    · exact .inr (.inl hrel)
    · exact .inr (.inr (.inl hclose))
    by_cases hdone : ∃ x, c.thread i = .done x
    · obtain ⟨x, hx⟩ := hdone
      rcases hpaid i x hx ref hdoom with hclose | hnone
      · exact .inr (.inr (.inl hclose))
      · cases hnone
    · exact .inr (.inr (.inr ⟨i, hdoom, fun x hx => hdone ⟨x, hx⟩⟩))
  · intro hclosed
    constructor
    · intro ls' c' hrun'
      exact run_keeps (fun _ _ _ _ _ _ _ hs h => shut_step hs h)
        (show Shut _ c.shared from ⟨hclosed, hsound.shut hclosed, rfl⟩) (meets_true _ _) hrun'
    · intro i env key sl x u hact
      obtain ⟨_, _, hact'⟩ := clocked_act hact
      have hans : (c.shared.2.reg.attach key sl).1 = x := congrArg Prod.fst (Option.some.inj hact')
      rw [← hans, Reg.attach, if_pos hclosed]

/-! ## A pod that comes back -/

/-- No labels from the operator, and a grace window of ten nanoseconds. -/
def bareConfig : Config := ⟨10, none, by decide⟩

def pod : Session := ⟨⟨"east", "01", 100, "pod"⟩⟩

/-- A spoke that answers at the time `now` and has been started at `gen`. -/
def answering (now gen : Int) : Env :=
  { now := now
    describe := fun _ _ => some ⟨"fp", true, { Cluster.zero with reachable := true }, gen⟩
    generation := fun _ => 0
    labelsFail := false
    revoked := fun _ => false
    orders := ⟨ascending, ascending⟩ }

/-- The pod connects twice, then both of its connections end. -/
def comeback : Fin 4 → Request
  | 0 => .onSession (some pod)
  | 1 => .onSession (some pod)
  | 2 => .release "east" "instance:pod" 0
  | 3 => .release "east" "instance:pod" 1

def during (env : Env) (is : List Nat) : List (Fin 4 × Env) :=
  (numbered is).map fun i => (i, env)

def comebackRun : List (Fin 4 × Env) :=
  during (answering 5 1) [0, 0, 0, 0, 0] ++ during (answering 6 2) [1, 1, 1, 1, 1, 1] ++
    during (answering 7 2) [2, 2] ++ during (answering 8 2) [3, 3]

/-- The late release of the first connection leaves the second one in its pool, and the
pool is frozen at the time at which the second one ends. -/
theorem session_pools_hold_when_a_pod_comes_back :
    ∃ c e, run (regMachine bareConfig) (system bareConfig 0 comeback) comebackRun = some c ∧
      Meets (regMachine bareConfig) Prompt (system bareConfig 0 comeback) comebackRun ∧
      c.shared.2.log.closing = [0] ∧ c.shared.2.reg.entries.lookup "east" = some e ∧
      e.slots = ∅ ∧ e.lastCluster.state = .disconnected ∧
      c.shared.2.log.leftAt "east" = some e.lastCluster.lastSeen := by
  obtain ⟨c, e, hrun, hmeets, hclosing, he, hempty⟩ : ∃ c e, run (regMachine bareConfig)
        (system bareConfig 0 comeback) comebackRun = some c ∧
      Meets (regMachine bareConfig) Prompt (system bareConfig 0 comeback) comebackRun ∧
      c.shared.2.log.closing = [0] ∧ c.shared.2.reg.entries.lookup "east" = some e ∧
      e.slots = ∅ := ⟨_, _, rfl, by decide +kernel, rfl, rfl, by decide +kernel⟩
  obtain ⟨_, _, _, _, _, hfrozen, _⟩ :=
    session_pools_hold_in_every_run bareConfig 0 comeback comebackRun c hrun
  obtain ⟨hstate, ⟨left, hleft, _, hprompt⟩, _⟩ := hfrozen "east" e he hempty
  refine ⟨c, e, hrun, hmeets, hclosing, he, hempty, hstate, ?_⟩
  rw [hprompt hmeets]
  exact hleft

end prom_fleet.registry
