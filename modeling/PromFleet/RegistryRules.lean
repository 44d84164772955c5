-- What each critical section of the registry can do to the pools, and the invariant that
-- every call keeps: the slots of a pool are live and carry the certificate's identity,
-- an empty pool is frozen, and no session is lost.
import PromFleet.Registry

namespace prom_fleet.registry

open interleave List Finmap fleet

/-! ## The pools -/

namespace Reg

variable {r : Reg} {id id' key key' : String} {ref : Ref} {e : Entry} {sl : Slot}

theorem holder_eq_some : r.holder id key ref = some (e, sl) ↔
      r.entries.lookup id = some e ∧ e.slots.lookup key = some ref ∧ r.heap[ref]? = some sl := by
  unfold holder
  rw [Option.bind_eq_some_iff]
  constructor
  · rintro ⟨e', he', h⟩
    split at h
    · rename_i hkey
      obtain ⟨sl', hsl', hpair⟩ := Option.map_eq_some_iff.mp h
      cases hpair
      exact ⟨he', hkey, hsl'⟩
    · cases h
  · rintro ⟨he, hkey, hsl⟩
    exact ⟨e, he, by simp [hkey, hsl]⟩

theorem occupant_of_lookup (h : r.entries.lookup id = some e) :
    r.occupant id key = e.slots.lookup key := by
  simp [occupant, h]

theorem exists_entry (h : r.occupant id key = some ref) :
    ∃ e, r.entries.lookup id = some e ∧ e.slots.lookup key = some ref :=
  Option.bind_eq_some_iff.mp h

/-- A late call of a slot that does not occupy its key finds no holder. -/
theorem holder_eq_none (h : r.occupant id key ≠ some ref) : r.holder id key ref = none := by
  cases hh : r.holder id key ref with
  | none => rfl
  | some p =>
    obtain ⟨he, hkey, _⟩ := holder_eq_some.mp hh
    exact absurd ((occupant_of_lookup he).trans hkey) h

theorem occupant_congr {r' : Reg} (h : r'.entries = r.entries) :
    r'.occupant id key = r.occupant id key := by
  unfold occupant
  rw [h]

theorem slots_entryOf : (r.entryOf id).slots.lookup key = r.occupant id key := by
  unfold entryOf occupant
  cases r.entries.lookup id with
  | none => simp
  | some e => rfl

theorem occupant_install_self : (r.install id key sl).occupant id key = some r.heap.length := by
  simp [install, occupant, lookup_insert]

theorem occupant_install_of_ne (h : ¬(id' = id ∧ key' = key)) :
    (r.install id key sl).occupant id' key' = r.occupant id' key' := by
  by_cases hid : id' = id
  · subst hid
    have hkey : key' ≠ key := fun hk => h ⟨rfl, hk⟩
    rw [← slots_entryOf (r := r)]
    simp [install, occupant, lookup_insert, lookup_insert_of_ne _ hkey]
  · simp [install, occupant, lookup_insert_of_ne _ hid]

theorem slots_ne_empty (h : e.slots.lookup key = some ref) : e.slots ≠ ∅ := by
  intro hempty
  rw [hempty, lookup_empty] at h
  cases h

/-! ## Detaching -/

variable {grace now : Int}

theorem occupant_detachLocked_self :
    (r.detachLocked grace id e key sl now).occupant id key = none := by
  unfold detachLocked
  dsimp only
  split_ifs <;> simp [occupant]

theorem occupant_detachLocked_of_ne (he : r.entries.lookup id = some e)
    (h : ¬(id' = id ∧ key' = key)) :
    (r.detachLocked grace id e key sl now).occupant id' key' = r.occupant id' key' := by
  unfold detachLocked
  dsimp only
  by_cases hid : id' = id
  · subst hid
    have hkey : key' ≠ key := fun hk => h ⟨rfl, hk⟩
    rw [occupant_of_lookup he, ← lookup_erase_ne hkey]
    split_ifs with hempty hgrace
    · simp [occupant, hempty]
    all_goals simp [occupant]
  · split_ifs <;> simp [occupant, hid]

theorem occupant_of_detachLocked (he : r.entries.lookup id = some e)
    (h : (r.detachLocked grace id e key sl now).occupant id' key' = some ref) :
    ¬(id' = id ∧ key' = key) ∧ r.occupant id' key' = some ref := by
  have hne : ¬(id' = id ∧ key' = key) := by
    rintro ⟨rfl, rfl⟩
    rw [occupant_detachLocked_self] at h
    cases h
  exact ⟨hne, (occupant_detachLocked_of_ne he hne).symm.trans h⟩

@[simp] theorem heap_detachLocked : (r.detachLocked grace id e key sl now).heap = r.heap := by
  unfold detachLocked
  dsimp only
  split_ifs <;> rfl

@[simp] theorem closed_detachLocked : (r.detachLocked grace id e key sl now).closed = r.closed := by
  unfold detachLocked
  dsimp only
  split_ifs <;> rfl

variable {e' : Entry}

/-- What an entry is after a slot has left: it was there, it lives on without that slot,
or it is frozen. -/
theorem lookup_detachLocked (he : r.entries.lookup id = some e)
    (h : (r.detachLocked grace id e key sl now).entries.lookup id' = some e') :
    r.entries.lookup id' = some e' ∨
      id' = id ∧ (e'.slots ≠ ∅ ∨ e' = ⟨∅, e.rr, frozen sl.facts now⟩) := by
  unfold detachLocked at h
  dsimp only at h
  by_cases hid : id' = id
  · subst hid
    refine .inr ⟨rfl, ?_⟩
    split_ifs at h with hempty hgrace <;> simp only [lookup_erase, lookup_insert] at h <;> cases h
    · exact .inr (by rw [hempty])
    · exact .inl hempty
  · refine .inl ?_
    split_ifs at h <;> simpa [hid] using h

theorem release_eq :
    r.release grace id key ref now = (closeVictims grace now [⟨id, key, ref, ""⟩] r).2 := by
  unfold release closeVictims
  cases r.holder id key ref with
  | none | some => rfl

variable (vs : List Victim)

@[simp] theorem heap_closeVictims (r : Reg) : (closeVictims grace now vs r).2.heap = r.heap := by
  induction vs generalizing r with
  | nil => rfl
  | cons v vs ih =>
    unfold closeVictims
    split
    · exact ih r
    · rw [ih]
      exact heap_detachLocked

@[simp] theorem closed_closeVictims (r : Reg) :
    (closeVictims grace now vs r).2.closed = r.closed := by
  induction vs generalizing r with
  | nil => rfl
  | cons v vs ih =>
    unfold closeVictims
    split
    · exact ih r
    · rw [ih]
      exact closed_detachLocked

theorem closeVictims_subset (r : Reg) : (closeVictims grace now vs r).1 ⊆ vs := by
  induction vs generalizing r with
  | nil => exact List.Subset.refl _
  | cons v vs ih =>
    unfold closeVictims
    split
    · exact List.Subset.trans (ih r) (subset_cons_self v vs)
    · exact cons_subset_cons v (ih _)

/-- A teardown leaves a key to its occupant or empties it, and it empties it only for a
victim that occupies it. -/
theorem occupant_closeVictims (r : Reg) (id key : String) :
    (closeVictims grace now vs r).2.occupant id key = r.occupant id key ∨
      (closeVictims grace now vs r).2.occupant id key = none ∧
        ∃ v ∈ (closeVictims grace now vs r).1,
          v.id = id ∧ v.key = key ∧ r.occupant id key = some v.slot := by
  induction vs generalizing r with
  | nil => exact .inl rfl
  | cons v vs ih =>
    unfold closeVictims
    split
    · exact ih r
    rename_i e sl hh
    obtain ⟨he, hkey, _⟩ := holder_eq_some.mp hh
    by_cases hv : id = v.id ∧ key = v.key
    · obtain ⟨rfl, rfl⟩ := hv
      have hnone : (closeVictims grace now vs
          (r.detachLocked grace v.id e v.key sl now)).2.occupant v.id v.key = none := by
        rcases ih (r.detachLocked grace v.id e v.key sl now) with h | ⟨h, _⟩
        · rw [h]
          exact occupant_detachLocked_self
        · exact h
      exact .inr ⟨hnone, v, mem_cons_self, rfl, rfl, (occupant_of_lookup he).trans hkey⟩
    · have hsame : (r.detachLocked grace v.id e v.key sl now).occupant id key =
          r.occupant id key := occupant_detachLocked_of_ne he hv
      rcases ih (r.detachLocked grace v.id e v.key sl now) with h | ⟨h, w, hw, hrest⟩
      · exact .inl (h.trans hsame)
      · rw [hsame] at hrest
        exact .inr ⟨h, w, mem_cons_of_mem v hw, hrest⟩

/-- An empty pool after a teardown was there before, or it is frozen with the facts of a
slot that was in it. -/
theorem lookup_closeVictims {vs : List Victim}
    (h : (closeVictims grace now vs r).2.entries.lookup id = some e') (hempty : e'.slots = ∅) :
    r.entries.lookup id = some e' ∨
      ∃ key ref sl, r.occupant id key = some ref ∧ r.heap[ref]? = some sl ∧
        e'.lastCluster = frozen sl.facts now := by
  induction vs generalizing r with
  | nil => exact .inl h
  | cons v vs ih =>
    unfold closeVictims at h
    split at h
    · exact ih h
    rename_i e sl hh
    obtain ⟨he, hkey, hsl⟩ := holder_eq_some.mp hh
    have hocc : r.occupant v.id v.key = some v.slot := (occupant_of_lookup he).trans hkey
    rcases ih h with h1 | ⟨key, ref, sl', h1, h2, h3⟩
    · rcases lookup_detachLocked he h1 with h1 | ⟨rfl, hne | rfl⟩
      · exact .inl h1
      · exact absurd hempty hne
      · exact .inr ⟨v.key, v.slot, sl, hocc, hsl, rfl⟩
    · rw [heap_detachLocked] at h2
      exact .inr ⟨key, ref, sl', (occupant_of_detachLocked he h1).2, h2, h3⟩

/-! ## Sweeping -/

variable {o : Orders}

theorem lookup_sweep : (r.sweep grace o now).2.entries.lookup id =
      (r.entries.lookup id).filter fun e => presentLocked grace e now := by
  unfold sweep
  dsimp only
  rw [map_range.lookup_sweep]
  simp

theorem present_of_slots (h : e.slots ≠ ∅) : presentLocked grace e now = true := by
  simp [presentLocked, h]

theorem occupant_sweep : (r.sweep grace o now).2.occupant id key = r.occupant id key := by
  unfold occupant
  rw [lookup_sweep]
  cases r.entries.lookup id with
  | none => rfl
  | some e =>
    by_cases hempty : e.slots = ∅
    · cases hp : presentLocked grace e now <;> simp [Option.filter, hp, hempty]
    · simp [Option.filter, present_of_slots hempty]

end Reg

/-! ## What an operation can do -/

/-- The clock reading that a section carries, from before its lock was taken. -/
def reading : RegOp → Option Int
  | .release _ _ _ now => some now
  | .closeVictims _ now => some now
  | _ => none

/-- The ways in which an operation can change the registry. -/
inductive Change (cfg : Config) (env : Env) (r : Reg) : (o : RegOp) → RegAns o → Reg → Prop
  | quiet {o : RegOp} {a : RegAns o} {r' : Reg} : r'.heap = r.heap → r'.entries = r.entries →
      r'.closed = r.closed → dooms o a = [] → Change cfg env r o a r'
  | install {key : String} {sl : Slot} : r.closed = false →
      (∀ prev, r.slotAt sl.session.identity.clusterID key = some prev →
        prev.generation ≤ sl.generation) →
      Change cfg env r (.attach key sl)
        (.ok (r.heap.length, (r.slotAt sl.session.identity.clusterID key).bind fun _ =>
          r.occupant sl.session.identity.clusterID key))
        (r.install sl.session.identity.clusterID key sl)
  | refresh {id key : String} {ref : Ref} {facts : Facts} {reported merged : StrMap String}
      {now : Int} {ent : Entry} {sl : Slot} : r.holder id key ref = some (ent, sl) →
      Change cfg env r (.apply id key ref facts reported merged now) ()
        { r with heap := r.heap.set ref (sl.refresh id facts reported merged now) }
  | release {id key : String} {ref : Ref} {now : Int} :
      Change cfg env r (.release id key ref now) ()
        (Reg.closeVictims cfg.grace now [⟨id, key, ref, ""⟩] r).2
  | closeVictims {vs : List Victim} {now : Int} :
      Change cfg env r (.closeVictims vs now) (Reg.closeVictims cfg.grace now vs r).1
        (Reg.closeVictims cfg.grace now vs r).2
  | sweep {now : Int} {n : Nat} :
      Change cfg env r (.sweep now) n (r.sweep cfg.grace env.orders now).2
  | close : r.closed = false →
      Change cfg env r .close
        ((env.orders.entries.list r.entries).flatMap fun x =>
          (env.orders.slots.list x.2.slots).map fun y => y.2)
        { r with closed := true, entries := ∅ }

theorem change_attach (cfg : Config) (env : Env) (r : Reg) (key : String) (sl : Slot) :
    Change cfg env r (.attach key sl) (r.attach key sl).1 (r.attach key sl).2 := by
  unfold Reg.attach
  dsimp only
  split
  · exact .quiet rfl rfl rfl rfl
  rename_i hopen
  have hopen : r.closed = false := by simpa using hopen
  split
  · rename_i prev hprev
    split
    · exact .quiet rfl rfl rfl rfl
    rename_i hgen
    have hall : ∀ p, r.slotAt sl.session.identity.clusterID key = some p →
        p.generation ≤ sl.generation := by
      intro p hp
      rw [hprev] at hp
      cases hp
      omega
    have h := @Change.install cfg env r key sl hopen hall
    rw [hprev] at h
    exact h
  · rename_i hnone
    have hall : ∀ p, r.slotAt sl.session.identity.clusterID key = some p →
        p.generation ≤ sl.generation := by
      intro p hp
      rw [hnone] at hp
      cases hp
    have h := @Change.install cfg env r key sl hopen hall
    rw [hnone] at h
    exact h

theorem regAct_change (cfg : Config) (o : RegOp) (env : Env) (r : Reg) :
    Change cfg env r o (regAct cfg o env r).1 (regAct cfg o env r).2 := by
  cases o with
  | attach key sl => exact change_attach cfg env r key sl
  | apply id key ref facts reported merged now =>
    cases hh : r.holder id key ref with
    | none =>
      have hsame : r.apply id key ref facts reported merged now = r := by
        simp [Reg.apply, hh]
      exact .quiet (congrArg Reg.heap hsame) (congrArg Reg.entries hsame)
        (congrArg Reg.closed hsame) rfl
    | some p =>
      obtain ⟨ent, sl⟩ := p
      have hset : r.apply id key ref facts reported merged now =
          { r with heap := r.heap.set ref (sl.refresh id facts reported merged now) } := by
        simp [Reg.apply, hh]
      show Change cfg env r (.apply id key ref facts reported merged now) ()
        (r.apply id key ref facts reported merged now)
      rw [hset]
      exact .refresh hh
  | release id key ref now =>
    show Change cfg env r (.release id key ref now) () (r.release cfg.grace id key ref now)
    rw [Reg.release_eq]
    exact .release
  | closeVictims vs now => exact .closeVictims
  | sweep now => exact .sweep
  | close =>
    show Change cfg env r .close (r.close env.orders).1 (r.close env.orders).2
    unfold Reg.close
    split
    · exact .quiet rfl rfl rfl rfl
    · rename_i hopen
      exact .close (by simpa using hopen)
  | _ => exact .quiet rfl rfl rfl rfl

theorem act_cases {ι : Type} {cfg : Config} {i : ι} {o : RegOp} {env : Env} {a : RegAns o}
    {s t : Int × World ι} (h : (regMachine cfg).act i o env s = some (a, t)) :
    s.1 ≤ t.1 ∧ t.1 = env.now ∧ Change cfg env s.2.reg o a t.2.reg ∧
      t.2.log = s.2.log.note i o a t.1 s.2.reg t.2.reg := by
  obtain ⟨hle, hnow, hact⟩ := clocked_act h
  obtain ⟨ha, ht⟩ := Prod.mk.injEq .. ▸ Option.some.inj hact
  rw [← ht, ← ha, hnow]
  exact ⟨hnow ▸ hle, rfl, regAct_change cfg o env s.2.reg, rfl⟩

end prom_fleet.registry
