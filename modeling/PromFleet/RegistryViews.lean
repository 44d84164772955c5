-- What the views of the registry show of a cluster: the identity of the certificate and
-- the labels of the operator, however the facts came together.
import PromFleet.RegistryCalls

namespace prom_fleet.registry

open interleave List map_range fleet

/-! ## The loop of the merge -/

variable {f : Cluster}

theorem freshest_mem (l : List Cluster) (m : Merge) (h : (l.foldl Merge.add m).freshest = some f) :
    m.freshest = some f ∨ f ∈ l := by
  induction l generalizing m with
  | nil => exact .inl h
  | cons c l ih =>
    rcases ih (m.add c) h with hadd | hmem
    · unfold Merge.add at hadd
      split at hadd
      · cases hadd
        exact .inr mem_cons_self
      rename_i g hg
      split at hadd
      · cases hadd
        exact .inr mem_cons_self
      · cases hadd
        exact .inl hg
    · exact .inr (mem_cons_of_mem c hmem)

theorem freshest_kept (l : List Cluster) (m : Merge) (h : m.freshest = some f) :
    ∃ g, (l.foldl Merge.add m).freshest = some g := by
  induction l generalizing m f with
  | nil => exact ⟨f, h⟩
  | cons c l ih =>
    by_cases hlt : f.lastSeen < c.lastSeen
    · exact ih (m.add c) (f := c) (by simp [Merge.add, h, hlt])
    · exact ih (m.add c) (f := f) (by simp [Merge.add, h, hlt])

theorem exists_freshest {l : List Cluster} (hl : l ≠ []) :
    ∃ f, (l.foldl Merge.add ⟨none, 0, 0, false⟩).freshest = some f := by
  cases l with
  | nil => exact absurd rfl hl
  | cons c l => exact freshest_kept l _ rfl

/-! ## The merged view -/

variable {ι : Type} {cfg : Config} {w : World ι} {e : Entry} {orders : Orders} {r : Reg}

theorem mem_pool : f ∈ r.pool orders e ↔ ∃ key ref sl, e.slots.lookup key = some ref ∧
      r.heap[ref]? = some sl ∧ sl.facts = f := by
  unfold Reg.pool
  rw [mem_filterMap]
  constructor
  · rintro ⟨⟨key, ref⟩, hmem, hf⟩
    obtain ⟨sl, hsl, rfl⟩ := Option.map_eq_some_iff.mp hf
    exact ⟨key, ref, sl, (Range.mem_list _ _).mp hmem, hsl, rfl⟩
  · rintro ⟨key, ref, sl, hkey, hsl, rfl⟩
    exact ⟨⟨key, ref⟩, (Range.mem_list _ _).mpr hkey, by simp [hsl]⟩

theorem exists_slot (h : e.slots ≠ ∅) : ∃ key ref, e.slots.lookup key = some ref := by
  by_contra hnone
  apply h
  apply Finmap.ext_lookup
  intro key
  cases hkey : e.slots.lookup key with
  | none => rfl
  | some ref => exact absurd ⟨key, ref, hkey⟩ hnone

variable {id : String}

theorem Sound.exists_freshest (hw : Sound cfg w) (he : w.reg.entries.lookup id = some e)
    (hlive : e.slots ≠ ∅) (orders : Orders) :
    ∃ f, ((w.reg.pool orders e).foldl Merge.add ⟨none, 0, 0, false⟩).freshest = some f ∧
      Branded cfg id f := by
  have hfacts : ∀ f ∈ w.reg.pool orders e, Branded cfg id f := by
    intro f hf
    obtain ⟨key, ref, sl, hkey, hsl, rfl⟩ := mem_pool.mp hf
    obtain ⟨sl', hsl', hid⟩ := hw.live ((Reg.occupant_of_lookup he).trans hkey)
    rw [hsl] at hsl'
    cases hsl'
    rw [← hid]
    exact hw.branded hsl
  have hpool : w.reg.pool orders e ≠ [] := by
    obtain ⟨key, ref, hkey⟩ := exists_slot hlive
    obtain ⟨sl, hsl, _⟩ := hw.live ((Reg.occupant_of_lookup he).trans hkey)
    exact ne_nil_of_mem (mem_pool.mpr ⟨key, ref, sl, hkey, hsl, rfl⟩)
  obtain ⟨f, hf⟩ := registry.exists_freshest hpool
  refine ⟨f, hf, ?_⟩
  rcases freshest_mem _ _ hf with hnone | hmem
  · cases hnone
  · exact hfacts f hmem

/-- The merged view has the identity of the certificate and the labels of the operator,
whether the pool has slots or is frozen. -/
theorem Sound.merged_branded (hw : Sound cfg w) (he : w.reg.entries.lookup id = some e)
    (orders : Orders) : Branded cfg id (w.reg.mergedLocked orders id e) := by
  unfold Reg.mergedLocked
  split
  · rename_i hempty
    exact (hw.frozen he hempty).1
  rename_i hlive
  obtain ⟨f, hf, hb⟩ := hw.exists_freshest he hlive orders
  simp only [hf]
  exact ⟨rfl, hb.2⟩

/-! ## The public views -/

variable {grace now : Int} {x : Cluster}

theorem cluster_eq_some :
    r.cluster grace orders now id = some x ↔ ∃ e, r.entries.lookup id = some e ∧
      presentLocked grace e now = true ∧ r.mergedLocked orders id e = x := by
  unfold Reg.cluster
  rw [Option.bind_eq_some_iff]
  constructor
  · rintro ⟨e, he, h⟩
    split at h
    · rename_i hp
      exact ⟨e, he, hp, Option.some.inj h⟩
    · cases h
  · rintro ⟨e, he, hp, rfl⟩
    exact ⟨e, he, by rw [if_pos hp]⟩

variable {keep : Cluster → Bool}

theorem mem_filter : x ∈ r.filter grace orders now keep ↔ keep x = true ∧ ∃ id e,
      r.entries.lookup id = some e ∧ presentLocked grace e now = true ∧
      r.mergedLocked orders id e = x := by
  unfold Reg.filter
  rw [mem_insertionSort, mem_filterMap]
  constructor
  · rintro ⟨⟨id, e⟩, hmem, h⟩
    split at h
    · rename_i hp
      obtain ⟨hx, hkeep⟩ := Option.filter_eq_some_iff.mp h
      cases hx
      exact ⟨hkeep, id, e, (Range.mem_list _ _).mp hmem, hp, rfl⟩
    · cases h
  · rintro ⟨hkeep, id, e, he, hp, rfl⟩
    refine ⟨⟨id, e⟩, (Range.mem_list _ _).mpr he, ?_⟩
    rw [if_pos hp]
    exact Option.filter_eq_some_iff.mpr ⟨rfl, hkeep⟩

/-- A cluster of a listing is the view of the cluster that it names. -/
theorem Sound.cluster_of_filter (hw : Sound cfg w) (hx : x ∈ w.reg.filter cfg.grace orders now keep)
    : w.reg.cluster cfg.grace orders now x.id = some x ∧ Branded cfg x.id x := by
  obtain ⟨_, id, e, he, hp, hmerged⟩ := mem_filter.mp hx
  have hb := hw.merged_branded he orders
  rw [hmerged] at hb
  have hid : x.id = id := hb.1
  rw [hid]
  exact ⟨cluster_eq_some.mpr ⟨e, he, hp, hmerged⟩, hb⟩

/-- A cluster is visible to a principal if it is present and the scope allows its view. -/
theorem Sound.mem_visible (hw : Sound cfg w) {p : Principal} {scope : fleet.Scope}
    (hscope : p.scope = some scope) :
    id ∈ (w.reg.visible cfg.grace orders now (some p)).map Cluster.id ↔
      ∃ e, w.reg.entries.lookup id = some e ∧ presentLocked cfg.grace e now = true ∧
        scope.allowsCluster id (w.reg.mergedLocked orders id e).labels = true := by
  have hvisible : w.reg.visible cfg.grace orders now (some p) =
      w.reg.filter cfg.grace orders now fun c => scope.allowsCluster c.id c.labels := by
    simp [Reg.visible, hscope]
  rw [hvisible, mem_map]
  constructor
  · rintro ⟨x, hx, rfl⟩
    obtain ⟨hkeep, id, e, he, hp, hmerged⟩ := mem_filter.mp hx
    have hb := hw.merged_branded he orders
    rw [hmerged] at hb
    have hid : x.id = id := hb.1
    refine ⟨e, by rw [hid]; exact he, hp, ?_⟩
    rw [hid, hmerged]
    rwa [hid] at hkeep
  · rintro ⟨e, he, hp, hallows⟩
    have hid : (w.reg.mergedLocked orders id e).id = id := (hw.merged_branded he orders).1
    refine ⟨_, mem_filter.mpr ⟨?_, id, e, he, hp, rfl⟩, hid⟩
    rw [hid]
    exact hallows

end prom_fleet.registry
