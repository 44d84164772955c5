-- What the gauges of the registry show when no call is in progress. The reports of a call
-- bring gauges that were right before its critical section to what is right after it, so
-- they are right again as long as no other section comes in between.
import PromFleet.RegistryGauges
import PromFleet.RegistryLaws

namespace prom_fleet.registry_gauges

open interleave publish List Finmap Prog registry

variable {ι : Type} [DecidableEq ι] {cfg : Config}

/-! ## Gauges and reports -/

def wanted (r : Reg) : Gauge → Report
  | .spoke id => .spokeConnected id (decide (0 < poolSize r id))
  | .spokes => .spokesConnected (connectedLocked r)
  | .sessions id => .sessionsPerCluster id (poolSize r id)

def shown (xs : List Report) : Gauge → Report
  | .spoke id => .spokeConnected id (lastSpoke id xs)
  | .spokes => .spokesConnected (lastSpokes xs)
  | .sessions id => .sessionsPerCluster id (lastSessions id xs)

theorem shown_cons (x : Report) (xs : List Report) (k : Gauge) :
    shown (x :: xs) k = if x.gauge = k then x else shown xs k := by
  cases k with
  | spoke id =>
    cases x with
    | spokeConnected id' connected =>
      by_cases h : id' = id <;> simp [shown, Report.gauge, lastSpoke, h]
    | _ => simp [shown, Report.gauge, lastSpoke]
  | spokes => cases x <;> simp [shown, Report.gauge, lastSpokes]
  | sessions id =>
    cases x with
    | sessionsPerCluster id' n =>
      by_cases h : id' = id <;> simp [shown, Report.gauge, lastSessions, h]
    | _ => simp [shown, Report.gauge, lastSessions]

variable (k : Gauge)

/-- What a gauge that shows `d` shows after the reports. -/
def after (d : Report) (xs : List Report) : Report :=
  xs.foldl (fun d x => if x.gauge = k then x else d) d

@[simp] theorem after_nil (d : Report) : after k d [] = d := rfl

@[simp] theorem after_cons (d x : Report) (xs : List Report) :
    after k d (x :: xs) = after k (if x.gauge = k then x else d) xs := rfl

theorem after_append (d : Report) (xs ys : List Report) :
    after k d (xs ++ ys) = after k (after k d xs) ys := foldl_append

theorem after_of_notMem {k : Gauge} {xs : List Report} (d : Report)
    (h : ∀ x ∈ xs, x.gauge ≠ k) : after k d xs = d := by
  induction xs with
  | nil => rfl
  | cons x xs ih =>
    rw [after_cons, if_neg (h x mem_cons_self)]
    exact ih fun y hy => h y (mem_cons_of_mem x hy)

/-! ## The sections -/

variable {id : String} {r : Reg}

theorem lt_poolSize_mem (h : 0 < poolSize r id) : id ∈ r.entries := by
  unfold poolSize at h
  cases hl : r.entries.lookup id with
  | none =>
    rw [hl] at h
    exact absurd h (by decide)
  | some e => exact mem_of_lookup_eq_some hl

variable {r' : Reg}

/-- The number of clusters is a matter of the pool sizes. -/
theorem connectedLocked_congr (h : ∀ id, poolSize r' id = poolSize r id) :
    connectedLocked r' = connectedLocked r := by
  unfold connectedLocked
  congr 1
  ext id
  simp only [Finset.mem_filter, Finmap.mem_keys, h]
  constructor
  · rintro ⟨_, hpos⟩
    exact ⟨lt_poolSize_mem hpos, hpos⟩
  · rintro ⟨_, hpos⟩
    exact ⟨lt_poolSize_mem (h id ▸ hpos), hpos⟩

theorem wanted_congr (h : ∀ id, poolSize r' id = poolSize r id) (k : Gauge) :
    wanted r' k = wanted r k := by
  cases k <;> simp only [wanted, h, connectedLocked_congr h]

variable {id' key : String} {sl : Slot}

theorem poolSize_install_of_ne (h : id' ≠ id) :
    poolSize (r.install id key sl) id' = poolSize r id' := by
  simp [poolSize, Reg.install, lookup_insert_of_ne _ h]

theorem lt_poolSize_install : 0 < poolSize (r.install id key sl) id := by
  simp only [poolSize, Reg.install, lookup_insert, Option.map_some, Option.getD_some,
    Finset.card_pos]
  exact ⟨key, mem_keys.mpr (mem_insert.mpr (Or.inl rfl))⟩

variable {grace now : Int}

theorem poolSize_detachLocked_of_ne {e : Entry} (h : id' ≠ id) :
    poolSize (r.detachLocked grace id e key sl now) id' = poolSize r id' := by
  unfold poolSize Reg.detachLocked
  dsimp only
  split_ifs <;> simp [lookup_insert_of_ne _ h, lookup_erase_ne h]

theorem poolSize_sweep {orders : Orders} (id : String) :
    poolSize (r.sweep grace orders now).2 id = poolSize r id := by
  unfold poolSize
  rw [Reg.lookup_sweep]
  cases r.entries.lookup id with
  | none => rfl
  | some e =>
    by_cases hempty : e.slots = ∅
    · cases hp : presentLocked grace e now <;> simp [Option.filter, hp, hempty]
    · simp [Option.filter, Reg.present_of_slots hempty]

theorem poolSize_still {o : RegOp} (ho : Still o) (e : Env) (r : Reg) (id : String) :
    poolSize (regAct cfg o e r).2 id = poolSize r id := by
  cases o with
  | attach | release | closeVictims | close => cases ho
  | sweep now => exact poolSize_sweep id
  | apply id key ref facts reported merged now =>
    simp only [regAct, Reg.apply]
    split <;> rfl
  | _ => rfl

/-! ## The reports that a section is due -/

/-- The reports of one session that `closeVictims` has detached. -/
def closureReports (x : Victim × Nat) : List Report :=
  [.spokeConnected x.1.id (decide (0 < x.2)), .sessionsPerCluster x.1.id x.2]

/-- The reports of `closeVictims`. It says nothing when it has detached nothing. -/
def teardownReports (closures : List Victim) (sizes : List Nat) (n : Nat) : List Report :=
  if closures = [] then []
  else (closures.zip sizes).flatMap closureReports ++ [.spokesConnected n]

/-- The reports of `Close` for the clusters of its sessions. -/
def closedReports : List String → List String → List Report
  | _, [] => []
  | seen, id :: ids =>
    if id ∈ seen then closedReports seen ids
    else .spokeConnected id false :: .sessionsPerCluster id 0 :: closedReports (id :: seen) ids

/-- What a call has to report after a section. -/
def due : (o : RegOp) → RegAns o → Figures o → List Report
  | .attach _ sl, .ok _, f =>
    [.spokeConnected sl.session.identity.clusterID true, .spokesConnected f.1,
      .sessionsPerCluster sl.session.identity.clusterID f.2]
  | .release id _ _ _, _, some f =>
    [.spokeConnected id (decide (0 < f.1)), .spokesConnected f.2, .sessionsPerCluster id f.1]
  | .closeVictims _ _, closures, f => teardownReports closures f.1 f.2
  | .close, _, some ids => closedReports [] ids ++ [.spokesConnected 0]
  | _, _, _ => []

theorem due_still {o : RegOp} (ho : Still o) (a : RegAns o) (f : Figures o) : due o a f = [] := by
  cases o <;> first | rfl | cases ho

theorem after_pool (r r' : Reg) (id : String) (k : Gauge)
    (hother : ∀ id', id' ≠ id → poolSize r' id' = poolSize r id') : after k (wanted r k)
      [.spokeConnected id (decide (0 < poolSize r' id)), .spokesConnected (connectedLocked r'),
        .sessionsPerCluster id (poolSize r' id)] = wanted r' k := by
  cases k with
  | spokes => simp [Report.gauge, wanted]
  | spoke id' | sessions id' =>
    by_cases h : id = id'
    · simp [Report.gauge, wanted, h]
    · simp [Report.gauge, wanted, h, hother id' (Ne.symm h)]

theorem after_attach (r : Reg) (key : String) (sl : Slot) (e : Env) (k : Gauge) :
    after k (wanted r k) (due (.attach key sl) (regAct cfg (.attach key sl) e r).1
        (figures cfg (.attach key sl) e r)) = wanted (regAct cfg (.attach key sl) e r).2 k := by
  have hinstall : after k (wanted r k)
      [.spokeConnected sl.session.identity.clusterID true,
        .spokesConnected (connectedLocked (r.install sl.session.identity.clusterID key sl)),
        .sessionsPerCluster sl.session.identity.clusterID
          (poolSize (r.install sl.session.identity.clusterID key sl)
            sl.session.identity.clusterID)] =
      wanted (r.install sl.session.identity.clusterID key sl) k := by
    have h := after_pool r (r.install sl.session.identity.clusterID key sl)
      sl.session.identity.clusterID k fun id' hne => poolSize_install_of_ne hne
    rw [decide_eq_true lt_poolSize_install] at h
    exact h
  simp only [regAct, figures]
  unfold Reg.attach
  dsimp only
  split
  · rfl
  split
  · split
    · rfl
    · exact hinstall
  · exact hinstall

theorem release_of_none {ref : Ref} (h : r.holder id key ref = none) :
    r.release grace id key ref now = r := by
  simp [Reg.release, h]

theorem after_release (r : Reg) (id key : String) (ref : Ref) (now : Int) (e : Env) (k : Gauge) :
    after k (wanted r k) (due (.release id key ref now) (regAct cfg (.release id key ref now) e r).1
        (figures cfg (.release id key ref now) e r)) =
      wanted (regAct cfg (.release id key ref now) e r).2 k := by
  simp only [regAct, figures]
  cases hh : r.holder id key ref with
  | none =>
    rw [release_of_none hh]
    rfl
  | some p =>
    refine after_pool r _ id k fun id' hne => ?_
    simp only [Reg.release, hh]
    exact poolSize_detachLocked_of_ne hne

theorem closeVictims_of_none {vs : List Victim} (h : (Reg.closeVictims grace now vs r).1 = []) :
    (Reg.closeVictims grace now vs r).2 = r := by
  induction vs with
  | nil => rfl
  | cons v vs ih =>
    unfold Reg.closeVictims at h ⊢
    split at h
    · exact ih h
    · cases h

/-- The reports of the loop leave the number of clusters alone, and bring the gauges of every
cluster to its pool. -/
theorem after_closures (grace now : Int) (vs : List Victim) (r : Reg) (k : Gauge) :
    after k (wanted r k)
      (((Reg.closeVictims grace now vs r).1.zip (closureSizes grace now vs r)).flatMap
        closureReports) =
      if k = .spokes then wanted r k else wanted (Reg.closeVictims grace now vs r).2 k := by
  induction vs generalizing r with
  | nil => split_ifs <;> rfl
  | cons v vs ih =>
    cases hh : r.holder v.id v.key v.slot with
    | none =>
      simp only [Reg.closeVictims, closureSizes, hh]
      exact ih r
    | some p =>
      obtain ⟨e, sl⟩ := p
      simp only [Reg.closeVictims, closureSizes, hh]
      -- the sizes after this session has left its pool
      generalize hr : r.detachLocked grace v.id e v.key sl now = r₁
      have hother : ∀ id', id' ≠ v.id → poolSize r₁ id' = poolSize r id' := by
        intro id' hne
        rw [← hr]
        exact poolSize_detachLocked_of_ne hne
      have hone : after k (wanted r k) (closureReports (v, poolSize r₁ v.id)) =
          if k = .spokes then wanted r k else wanted r₁ k := by
        cases k with
        | spokes => simp [closureReports, Report.gauge, wanted]
        | spoke id' | sessions id' =>
          by_cases h : v.id = id'
          · simp [closureReports, Report.gauge, wanted, h]
          · simp [closureReports, Report.gauge, wanted, h, hother id' (Ne.symm h)]
      rw [zip_cons_cons, flatMap_cons, after_append, hone]
      by_cases hk : k = .spokes
      · subst hk
        simp only [if_true]
        refine after_of_notMem _ fun x hx => ?_
        obtain ⟨y, _, hx⟩ := mem_flatMap.mp hx
        simp only [closureReports, mem_cons, not_mem_nil, or_false] at hx
        rcases hx with rfl | rfl <;> simp [Report.gauge]
      · have hrest := ih r₁
        rw [if_neg hk] at hrest ⊢
        rw [hrest, if_neg hk]

theorem after_closeVictims (r : Reg) (vs : List Victim) (now : Int) (e : Env) (k : Gauge) :
    after k (wanted r k) (due (.closeVictims vs now) (regAct cfg (.closeVictims vs now) e r).1
        (figures cfg (.closeVictims vs now) e r)) =
      wanted (regAct cfg (.closeVictims vs now) e r).2 k := by
  simp only [regAct, figures, due]
  unfold teardownReports
  by_cases hnone : (Reg.closeVictims cfg.grace now vs r).1 = []
  · rw [if_pos hnone, closeVictims_of_none hnone]
    rfl
  rw [if_neg hnone, after_append, after_closures]
  cases k with
  | spokes => simp [Report.gauge, wanted]
  | _ => simp [Report.gauge]

def idle : Gauge → Report
  | .spoke id => .spokeConnected id false
  | .spokes => .spokesConnected 0
  | .sessions id => .sessionsPerCluster id 0

/-- The loop of `Close` leaves the gauges of a cluster at zero, if it had sessions or was at
zero before. -/
theorem after_closed {k : Gauge} (hk : k = .spoke id ∨ k = .sessions id) (ids : List String) :
    ∀ (seen : List String) (d : Report),
      (id ∈ ids ∧ id ∉ seen) ∨ d = idle k → after k d (closedReports seen ids) = idle k := by
  induction ids with
  | nil =>
    rintro seen d (⟨hmem, _⟩ | hd)
    · cases hmem
    · exact hd
  | cons id' ids ih =>
    intro seen d h
    unfold closedReports
    by_cases hseen : id' ∈ seen
    · rw [if_pos hseen]
      refine ih seen d (h.imp_left fun ⟨hmem, hnew⟩ => ⟨?_, hnew⟩)
      rcases mem_cons.mp hmem with rfl | hmem
      · exact absurd hseen hnew
      · exact hmem
    · rw [if_neg hseen, after_cons, after_cons]
      apply ih
      by_cases hid : id' = id
      · subst hid
        refine .inr ?_
        rcases hk with rfl | rfl <;> simp [Report.gauge, idle]
      · have hsame : (if (Report.sessionsPerCluster id' 0).gauge = k then
            Report.sessionsPerCluster id' 0
            else if (Report.spokeConnected id' false).gauge = k then
              Report.spokeConnected id' false else d) = d := by
          rcases hk with rfl | rfl <;> simp [Report.gauge, hid]
        rw [hsame]
        refine h.imp_left fun ⟨hmem, hnew⟩ => ⟨?_, ?_⟩
        · exact (mem_cons.mp hmem).resolve_left (Ne.symm hid)
        · exact fun hin => (mem_cons.mp hin).elim (fun h => hid h.symm) hnew

/-- The sessions that `Close` closes are those of the clusters with a session. -/
theorem mem_targets (orders : Orders) : (id ∈ (orders.entries.list r.entries).flatMap fun x =>
      (orders.slots.list x.2.slots).map fun _ => x.1) ↔ 0 < poolSize r id := by
  rw [mem_flatMap]
  constructor
  · rintro ⟨⟨id', e⟩, hmem, hid⟩
    obtain ⟨⟨key, ref⟩, hslot, rfl⟩ := mem_map.mp hid
    rw [map_range.Range.mem_list] at hmem hslot
    simp only [poolSize, hmem, Option.map_some, Option.getD_some, Finset.card_pos]
    exact ⟨key, mem_keys.mpr (mem_of_lookup_eq_some hslot)⟩
  · intro hpos
    unfold poolSize at hpos
    cases he : r.entries.lookup id with
    | none =>
      rw [he] at hpos
      exact absurd hpos (by decide)
    | some e =>
      simp only [he, Option.map_some, Option.getD_some, Finset.card_pos] at hpos
      obtain ⟨key, hkey⟩ := hpos
      obtain ⟨ref, href⟩ := mem_iff.mp (mem_keys.mp hkey)
      refine ⟨⟨id, e⟩, (orders.entries.mem_list r.entries).mpr he, ?_⟩
      exact mem_map.mpr ⟨⟨key, ref⟩, (orders.slots.mem_list e.slots).mpr href, rfl⟩

theorem wanted_of_empty (r : Reg) (h : r.entries = ∅) (k : Gauge) : wanted r k = idle k := by
  cases k <;> simp [wanted, idle, poolSize, connectedLocked, h]

theorem after_close (r : Reg) (e : Env) (k : Gauge) :
    after k (wanted r k) (due .close (regAct cfg .close e r).1 (figures cfg .close e r)) =
      wanted (regAct cfg .close e r).2 k := by
  simp only [regAct, figures, Reg.close]
  cases hclosed : r.closed with
  | true => rfl
  | false =>
    simp only [due, Bool.false_eq_true, if_false]
    rw [wanted_of_empty { r with closed := true, entries := ∅ } rfl, after_append]
    have hcluster : ∀ id, k = .spoke id ∨ k = .sessions id →
        (0 < poolSize r id ∧ id ∉ ([] : List String)) ∨ wanted r k = idle k := by
      intro id hk
      by_cases hpos : 0 < poolSize r id
      · exact .inl ⟨hpos, by simp⟩
      · refine .inr ?_
        rcases hk with rfl | rfl <;> simp [wanted, idle] <;> omega
    cases k with
    | spokes => rfl
    | spoke id =>
      have h := hcluster id (Or.inl rfl)
      rw [← mem_targets e.orders] at h
      rw [after_closed (Or.inl rfl) _ [] _ h]
      rfl
    | sessions id =>
      have h := hcluster id (Or.inr rfl)
      rw [← mem_targets e.orders] at h
      rw [after_closed (Or.inr rfl) _ [] _ h]
      rfl

/-- The reports that a section is due bring right gauges to what is right after it. -/
theorem after_due (o : RegOp) (e : Env) (r : Reg) (k : Gauge) :
    after k (wanted r k) (due o (regAct cfg o e r).1 (figures cfg o e r)) =
      wanted (regAct cfg o e r).2 k := by
  cases ho : o.moves with
  | false =>
    rw [due_still ho, after_nil]
    exact (wanted_congr (poolSize_still ho e r) k).symm
  | true =>
    cases o with
    | attach key sl => exact after_attach r key sl e k
    | release id key ref now => exact after_release r id key ref now e k
    | closeVictims vs now => exact after_closeVictims r vs now e k
    | close => exact after_close r e k
    | _ => cases ho

/-! ## What a call has still to report -/

/-- The reports that a call has still to make. -/
def next (m : List Report) : (o : Op) → Ans o → List Report
  | .reg o, x => m ++ due o x.1 x.2
  | .report _, _ => m.tail

/-- A call takes up its next section when it has reported the one before, and reports what is
next on its list. -/
def may (m : List Report) : Op → Prop
  | .reg o => o.moves = true → m = []
  | .report x => m.head? = some x

abbrev Reports {α : Type} (p : Call α) (m : List Report) : Prop :=
  p.Obeys next may (fun m' _ => m' = []) m

variable {α : Type} {p : registry.Call α}

theorem lift_obeys (hp : p.Only Still) (m : List Report) :
    (lift p).Obeys next may (fun m' _ => m' = m) m := by
  induction p with
  | done a => exact rfl
  | op o k ih =>
    refine ⟨fun hmoves => absurd hmoves (by rw [hp.1]; decide), fun x => ?_⟩
    have hnext : next m (.reg o) x = m := by
      simp [next, due_still hp.1]
    rw [hnext]
    exact ih x.1 (hp.2 x.1)

variable {m : List Report} {β : Type}

theorem lift_reports (hp : p.Only Still) {f : α → Call β} (hf : ∀ a, Reports (f a) m) :
    Reports (lift p >>= f) m := by
  refine (lift_obeys hp m).bind ?_
  rintro _ a rfl
  exact hf a

variable {f : Unit → Call β}

theorem report_reports {x : Report} (hf : Reports (f ()) m) : Reports (report x >>= f) (x :: m) :=
  ⟨rfl, fun _ => hf⟩

theorem done_reports (a : α) : Reports (Prog.done a) [] := rfl

theorem call_still (o : RegOp) (ho : Still o) :
    (Prog.call o : registry.Call (RegAns o)).Only Still := ⟨ho, fun _ => trivial⟩

theorem sweep_still : sweep.Only Still := ⟨rfl, fun _ => ⟨rfl, fun _ => trivial⟩⟩

theorem prepare_still (cfg : Config) (s : Option Session) : (prepare cfg s).Only Still := by
  cases s with
  | none => exact trivial
  | some s =>
    unfold prepare
    dsimp only
    split
    · exact trivial
    simp only [call_bind]
    refine ⟨rfl, fun closed => ?_⟩
    cases closed with
    | true => exact trivial
    | false =>
      refine ⟨rfl, fun reply => ?_⟩
      cases reply with
      | none => exact trivial
      | some facts =>
        refine ⟨rfl, fun gen => ?_⟩
        refine .bind (slotKey_still _) fun key => ?_
        refine .bind (clusterFrom_still _ _ _ _) fun cluster => ?_
        cases cluster <;> exact trivial

theorem onSession_reports (cfg : Config) (s : Option Session) : Reports (onSession cfg s) [] := by
  refine lift_reports (prepare_still cfg s) fun prepared => ?_
  cases prepared with
  | error e => exact done_reports _
  | ok x =>
    obtain ⟨key, sl⟩ := x
    refine ⟨fun _ => rfl, fun answer => ?_⟩
    obtain ⟨attached, n, size⟩ := answer
    cases attached with
    | error e => exact done_reports _
    | ok y =>
      obtain ⟨ref, prev⟩ := y
      refine lift_reports (closeSessions_still prev.toList) fun _ => ?_
      apply report_reports
      apply report_reports
      apply report_reports
      exact done_reports _

theorem release_reports (id key : String) (ref : Ref) : Reports (release id key ref) [] := by
  refine lift_reports (call_still RegOp.clock rfl) fun now => ?_
  refine ⟨fun _ => rfl, fun answer => ?_⟩
  obtain ⟨_, figures⟩ := answer
  cases figures with
  | none => exact done_reports _
  | some f =>
    apply report_reports
    apply report_reports
    exact report_reports (done_reports ())

theorem closeLoop_reports (xs : List (Victim × Nat)) (hf : Reports (f ()) m) :
    Reports (closeLoop xs >>= f) (xs.flatMap closureReports ++ m) := by
  induction xs with
  | nil => exact hf
  | cons x xs ih =>
    obtain ⟨v, size⟩ := x
    simp only [closeLoop, bind_assoc]
    refine lift_reports (closeSessions_still [v.slot]) fun _ => ?_
    apply report_reports
    apply report_reports
    exact ih

theorem closeDetached_reports (closures : List Victim) (sizes : List Nat) (n : Nat) :
    Reports (closeDetached closures sizes n) (teardownReports closures sizes n) := by
  unfold closeDetached teardownReports
  by_cases hnone : closures = []
  · simp only [if_pos hnone]
    exact done_reports _
  · simp only [if_neg hnone]
    refine closeLoop_reports _ ?_
    exact report_reports (done_reports _)

theorem closeVictims_reports (victims : List Victim) : Reports (closeVictims victims) [] := by
  unfold closeVictims
  split
  · exact done_reports _
  refine lift_reports (call_still RegOp.clock rfl) fun now => ?_
  refine ⟨fun _ => rfl, fun answer => ?_⟩
  exact closeDetached_reports answer.1 answer.2.1 answer.2.2

theorem closeRevokedBy_reports (isRevoked : String → registry.Call Bool)
    (hr : ∀ serial, (isRevoked serial).Only Still) : Reports (closeRevokedBy isRevoked) [] := by
  refine lift_reports (call_still RegOp.candidates rfl) fun candidates => ?_
  exact lift_reports (judge_still isRevoked hr candidates ∅) closeVictims_reports

theorem reportClosed_reports (ids : List String) (hf : Reports (f ()) m) :
    ∀ seen, Reports (reportClosed seen ids >>= f) (closedReports seen ids ++ m) := by
  induction ids with
  | nil => exact fun _ => hf
  | cons id ids ih =>
    intro seen
    unfold reportClosed closedReports
    by_cases hseen : id ∈ seen
    · simp only [if_pos hseen]
      exact ih seen
    simp only [if_neg hseen, bind_assoc, cons_append]
    apply report_reports
    apply report_reports
    exact ih (id :: seen)

theorem close_reports : Reports close [] := by
  refine ⟨fun _ => rfl, fun answer => ?_⟩
  obtain ⟨targets, figures⟩ := answer
  cases figures with
  | none => exact done_reports _
  | some ids =>
    refine lift_reports (closeSessions_still targets) fun _ => ?_
    refine reportClosed_reports ids ?_ []
    exact report_reports (done_reports ())

/-- A call that ends has reported all that it had to. -/
theorem program_reports (cfg : Config) (q : Request) : Reports (program cfg q) [] := by
  have hmap : ∀ {α : Type} {p : Call α} {f : α → Reply}, Reports p [] →
      Reports (p >>= fun a => Prog.done (f a)) [] := by
    intro α p f hp
    refine .bind hp ?_
    rintro _ a rfl
    exact done_reports _
  cases q with
  | onSession s => exact hmap (onSession_reports cfg s)
  | pollFacts key ref s ticks =>
    exact lift_reports (pollFacts_still _ _ _ _ _ _) fun _ => done_reports _
  | release id key ref => exact hmap (release_reports id key ref)
  | closeRevokedBy => exact hmap (closeRevokedBy_reports _ fun _ => ⟨rfl, fun _ => trivial⟩)
  | closeRevoked serials =>
    refine hmap ?_
    unfold closeRevoked
    split
    · exact done_reports _
    · exact closeRevokedBy_reports _ fun _ => trivial
  | sweep => exact lift_reports sweep_still fun _ => done_reports _
  | close => exact hmap close_reports

/-! ## Runs -/

/-- The critical sections that move sessions. -/
def Op.moves : Op → Bool
  | .reg o => o.moves
  | .report _ => false

/-- A report comes before the section of another call. -/
def timely (i : ι) (o : Op) (log : Record ι) : Bool :=
  match o with
  | .reg _ => true
  | .report _ => fresh Op.moves Op.moves i log

/-- The list of reports that call `i` has still to make. -/
def todo (i : ι) (log : Record ι) : List Report := outcome next [] (own i log)

/-- The value that the list brings a gauge to, whatever it shows before. -/
def Brings (m : List Report) (x : Report) : Prop := ∀ d, after k d m = x

/-- What is left on the list of a call is right, as long as no other call has had a section
after its own. -/
abbrev Right (s : World × Record ι) : Prop :=
  Current Op.moves Op.moves next [] (Brings k) (fun w => wanted w.reg k) s

/-- The gauge is right, or some call has still to report it. -/
abbrev Settled (s : World × Record ι) : Prop :=
  Owed next [] (fun m => ∃ x ∈ m, x.gauge = k) (fun w => shown w.reports k)
    (fun w => wanted w.reg k) s

variable {i : ι} {o : Op} {e : Env} {a : Ans o} {s t : World × Record ι} {k : Gauge}

omit [DecidableEq ι] in
theorem machine_act (h : (machine ι cfg).act i o e s = some (a, t)) : act cfg o e s.1 = (a, t.1) :=
  Option.some.inj (recorded_act h).1

omit [DecidableEq ι] in
theorem wanted_of_still (h : (machine ι cfg).act i o e s = some (a, t)) (ho : o.moves = false) :
    wanted t.1.reg k = wanted s.1.reg k := by
  have hact := machine_act h
  cases o with
  | reg o =>
    obtain ⟨_, hworld⟩ := Prod.mk.inj hact
    rw [← hworld]
    exact wanted_congr (poolSize_still ho e s.1.reg) k
  | report x =>
    obtain ⟨_, hworld⟩ := Prod.mk.inj hact
    rw [← hworld]

theorem Right.step (hmay : may (todo i s.2) o) (h : (machine ι cfg).act i o e s = some (a, t))
    (hs : Right k s) : Right k t := by
  have hact := machine_act h
  refine Current.step ?_ ?_ (wanted_of_still h) h hs
  · intro ho x hx
    cases o with
    | report y => cases ho
    | reg o =>
      obtain ⟨hans, hworld⟩ := Prod.mk.inj hact
      have hnil : outcome next [] (own i s.2) = [] := hmay ho
      rw [hnil, ← hans] at hx
      rw [← hworld]
      exact (after_due o e s.1.reg k).symm.trans (hx (wanted s.1.reg k))
  · intro ho x hx
    cases o with
    | reg o =>
      have hsame : next (outcome next [] (own i s.2)) (.reg o) a = outcome next [] (own i s.2) := by
        simp [next, due_still ho]
      rw [hsame] at hx
      exact hx
    | report y =>
      intro d
      generalize hm : outcome next [] (own i s.2) = m at hx
      have hhead : m.head? = some y := by
        rw [← hm]
        exact hmay
      cases m with
      | nil => cases hhead
      | cons z m => exact hx _

/-- The conditions on a step: its call may do it, and reports what is still right. -/
structure Good (i : ι) (o : Op) (s : World × Record ι) : Prop where
  may : may (todo i s.2) o
  timely : timely i o s.2 = true
  right : ∀ k, Right k s

theorem Settled.step (hgood : Good i o s) (h : (machine ι cfg).act i o e s = some (a, t))
    (hs : Settled k s) : Settled k t := by
  have hact := machine_act h
  refine Owed.step ?_ h hs
  have hmay := hgood.may
  unfold todo at hmay
  generalize hm : outcome next [] (own i s.2) = m at hmay ⊢
  cases o with
  | reg o =>
    obtain ⟨hans, hworld⟩ := Prod.mk.inj hact
    by_cases howes : ∃ x ∈ due o a.1 a.2, x.gauge = k
    · obtain ⟨x, hx, hk⟩ := howes
      exact Or.inl ⟨x, mem_append_right m hx, hk⟩
    refine Or.inr (Or.inr ⟨?_, ?_, ?_⟩)
    · rw [← hworld]
    · -- no report is due, so the number has not changed
      have hnone : ∀ x ∈ due o a.1 a.2, x.gauge ≠ k := fun x hx hk => howes ⟨x, hx, hk⟩
      have hdue : after k _ (due o (regAct cfg o e s.1.reg).1 _) = _ := after_due o e s.1.reg k
      rw [← hans] at hnone
      rw [after_of_notMem _ hnone] at hdue
      rw [← hworld]
      exact hdue.symm
    · rintro ⟨x, hx, hk⟩
      exact ⟨x, mem_append_left _ hx, hk⟩
  | report x =>
    obtain ⟨_, hworld⟩ := Prod.mk.inj hact
    cases m with
    | nil => cases hmay
    | cons y m =>
      cases hmay
      by_cases howes : ∃ y ∈ m, y.gauge = k
      · exact Or.inl howes
      have hnone : ∀ y ∈ m, y.gauge ≠ k := fun y hy hk => howes ⟨y, hy, hk⟩
      by_cases hk : x.gauge = k
      · -- the last report of this gauge on the list of the call
        have hbrings : Brings k (outcome next [] (own i s.2)) x := by
          intro d
          rw [hm, after_cons, if_pos hk]
          exact after_of_notMem x hnone
        have hwanted := hgood.right k i x hgood.timely hbrings
        refine Or.inr (Or.inl ?_)
        rw [← hworld]
        simp only [shown_cons, if_pos hk]
        exact hwanted.symm
      · refine Or.inr (Or.inr ⟨?_, ?_, ?_⟩)
        · rw [← hworld]
          simp only [shown_cons, if_neg hk]
        · rw [← hworld]
        · rintro ⟨y, hy, hyk⟩
          rcases mem_cons.mp hy with rfl | hy
          · exact absurd hyk hk
          · exact ⟨y, hy, hyk⟩

def polls : Request → Bool
  | .pollFacts .. => true
  | _ => false

theorem todo_of_still {log : Record ι} (h : ∀ ev ∈ own i log, ev.op.moves = false ∧
    ∀ x, ev.op ≠ .report x) : todo i log = [] := by
  unfold todo
  generalize own i log = evs at h
  induction evs using List.reverseRecOn with
  | nil => rfl
  | append_singleton evs ev ih =>
    obtain ⟨hlast, hreport⟩ := h ev (by simp)
    rw [outcome_concat, ih fun ev' hev' => h ev' (mem_append_left _ hev')]
    obtain ⟨o, e, a, s, t⟩ := ev
    cases o with
    | reg o => simp [next, due_still (show Still o from hlast)]
    | report x => exact absurd rfl (hreport x)

theorem lift_only (hp : p.Only Still) :
    (lift p).Only fun o => o.moves = false ∧ ∀ x, o ≠ .report x := by
  induction p with
  | done a => trivial
  | op o k ih => exact ⟨⟨hp.1, fun x => by simp⟩, fun x => ih x.1 (hp.2 x.1)⟩

/-- If every call makes its reports before the critical section of another one, then whenever no
call is under way (the polls of the facts apart) the last number of connected spokes is the number
of clusters with a session, and the last reports of each cluster are those of its pool. -/
theorem the_gauges_are_right_at_rest (cfg : Config) (calls : ι → Request)
    (ls : List (ι × Env)) {c : Conf Ans ι (World × Record ι) Reply}
    (hrun : run (machine ι cfg) (start cfg calls) ls = some c)
    (htimely : Meets (machine ι cfg) (fun i o _ s => timely i o s.2 = true) (start cfg calls) ls)
    (hrest : ∀ i, own i c.shared.2 = [] ∨ (∃ x, c.thread i = .done x) ∨ polls (calls i) = true) :
    lastSpokes c.shared.1.reports = connectedLocked c.shared.1.reg ∧
    ∀ id, lastSpoke id c.shared.1.reports = decide (0 < poolSize c.shared.1.reg id) ∧
      lastSessions id c.shared.1.reports = poolSize c.shared.1.reg id := by
  have hobeys : ∀ j, ((start cfg calls).thread j).Obeys next may (fun m _ => m = [])
      (todo j (start cfg calls).shared.2) := fun j => program_reports cfg (calls j)
  have hmay := (meets_obeys ls hobeys).and htimely
  have hright : Meets (machine ι cfg) (fun i o _ s => (may (todo i s.2) o ∧
      timely i o s.2 = true) ∧ ∀ k, Right k s) (start cfg calls) ls := by
    refine hmay.keeps ?_ ?_
    · intro i o e s a t hcond hs hact k
      exact Right.step hcond.1 hact (hs k)
    · intro k i x hfresh _
      cases hfresh
  have hgood : Meets (machine ι cfg) (fun i o _ s => Good i o s) (start cfg calls) ls :=
    hright.mono fun _ _ _ _ h => ⟨h.1.1, h.1.2, h.2⟩
  have hsettled : ∀ k, Settled k c.shared := by
    intro k
    refine run_keeps (fun _ _ _ _ _ _ hg hs hact => Settled.step hg hact hs) (Or.inl ?_) hgood hrun
    cases k <;> rfl
  -- nobody has anything left to report
  have hnone : ∀ i, todo i c.shared.2 = [] := by
    intro i
    rcases hrest i with hidle | ⟨x, hdone⟩ | hpolls
    · unfold todo
      rw [hidle]
      rfl
    · have hend := run_obeys hobeys hrun i
      rw [hdone] at hend
      exact hend
    · have hlift : ((start cfg calls).thread i).Only
          fun o => o.moves = false ∧ ∀ x, o ≠ .report x := by
        simp only [start]
        cases hcall : calls i with
        | pollFacts key ref s ticks =>
          exact .bind (lift_only (pollFacts_still _ _ _ _ _ _)) fun _ => trivial
        | _ =>
          rw [hcall] at hpolls
          cases hpolls
      exact todo_of_still (run_only hlift (by simp [start]) hrun)
  have hall : ∀ k, shown c.shared.1.reports k = wanted c.shared.1.reg k := by
    intro k
    rcases hsettled k with hright | ⟨i, x, hx, _⟩
    · exact hright
    have hnil : outcome next [] (own i c.shared.2) = [] := hnone i
    rw [hnil] at hx
    cases hx
  refine ⟨?_, fun id => ⟨?_, ?_⟩⟩
  · exact Report.spokesConnected.inj (hall .spokes)
  · exact (Report.spokeConnected.inj (hall (.spoke id))).2
  · exact (Report.sessionsPerCluster.inj (hall (.sessions id))).2

/-- A pod connects, its slot is released, and another pod of its cluster connects. -/
def handover : Fin 3 → Request
  | 0 => .onSession (some pod)
  | 1 => .release "east" "instance:pod" 0
  | 2 => .onSession (some ⟨⟨"east", "02", 100, "pod-2"⟩⟩)

def steps (i : Fin 3) (n : Nat) : List (Fin 3 × Env) := List.replicate n (i, answering 5 1)

theorem the_gauges_are_right_after_a_handover :
    ∃ c, run (machine (Fin 3) bareConfig) (start bareConfig handover)
        (steps 0 8 ++ steps 1 5 ++ steps 2 8) = some c ∧
      lastSpokes c.shared.1.reports = 1 ∧ lastSessions "east" c.shared.1.reports = 1 := by
  have h := the_gauges_are_right_at_rest bareConfig handover
    (steps 0 8 ++ steps 1 5 ++ steps 2 8) rfl (by decide +kernel) ?_
  · exact ⟨_, rfl, h.1.trans (by decide +kernel), (h.2 "east").2.trans (by decide +kernel)⟩
  · intro i
    match i with
    | 0 | 1 | 2 => exact .inr (.inl ⟨_, rfl⟩)

/-- A release computes its numbers, another pod of the cluster connects and reports, and then
the release reports: every call has returned, the cluster has a session, and all three gauges
say that it has none. -/
theorem a_late_report_may_be_the_last_one :
    ∃ c, run (machine (Fin 3) bareConfig) (start bareConfig handover)
        (steps 0 8 ++ steps 1 2 ++ steps 2 8 ++ steps 1 3) = some c ∧
      (∀ i, (c.thread i).result.isSome = true) ∧
      connectedLocked c.shared.1.reg = 1 ∧ poolSize c.shared.1.reg "east" = 1 ∧
      lastSpokes c.shared.1.reports = 0 ∧ lastSpoke "east" c.shared.1.reports = false ∧
      lastSessions "east" c.shared.1.reports = 0 :=
  ⟨_, rfl, by decide +kernel, by decide +kernel, by decide +kernel, by decide +kernel,
    by decide +kernel, by decide +kernel⟩

end prom_fleet.registry_gauges
