-- The invariant of the registry, and that every call keeps it in every interleaving.
-- A section may leave slots that its call still has to close: the call owes them, and
-- it has closed them all when it ends.
import PromFleet.RegistryRules
import PromFleet.History

namespace prom_fleet.registry

open interleave List Finmap map_range fleet

variable {ι : Type} {cfg : Config} {env : Env} {r r' : Reg} {o : RegOp} {a : RegAns o}

/-! ## One change -/

namespace Change

variable {id key : String} {ref : Ref} {sl : Slot}

variable (h : Change cfg env r o a r')

include h

/-- A change keeps an occupant, or its call or its transport is done with the slot. -/
theorem occupant_cases (hocc : r.occupant id key = some ref) (hlive : r.heap[ref]? = some sl) :
    r'.occupant id key = some ref ∨ ref ∈ dooms o a ∨ ref ∈ releases o := by
  cases h with
  | quiet _ hentries _ _ => exact .inl ((Reg.occupant_congr hentries).trans hocc)
  | @install k s _ _ =>
    by_cases hk : id = s.session.identity.clusterID ∧ key = k
    · obtain ⟨rfl, rfl⟩ := hk
      have hslot : r.slotAt s.session.identity.clusterID key = some sl := by
        simp [Reg.slotAt, hocc, hlive]
      rw [hslot, hocc]
      exact .inr (.inl mem_cons_self)
    · exact .inl ((Reg.occupant_install_of_ne hk).trans hocc)
  | refresh _ => exact .inl hocc
  | @release id' key' ref' now =>
    rcases @Reg.occupant_closeVictims cfg.grace now
      [⟨id', key', ref', ""⟩] r id key with h | ⟨_, v, hv, _, _, hslot⟩
    · exact .inl (h.trans hocc)
    obtain rfl := mem_singleton.mp (Reg.closeVictims_subset _ _ hv)
    rw [hocc] at hslot
    cases hslot
    exact .inr (.inr mem_cons_self)
  | @closeVictims vs now =>
    rcases @Reg.occupant_closeVictims cfg.grace now vs r id key with
      h | ⟨_, v, hv, _, _, hslot⟩
    · exact .inl (h.trans hocc)
    rw [hocc] at hslot
    cases hslot
    exact .inr (.inl (mem_map.mpr ⟨v, hv, rfl⟩))
  | sweep => exact .inl (Reg.occupant_sweep.trans hocc)
  | close _ =>
    obtain ⟨e, he, hkey⟩ := Reg.exists_entry hocc
    refine .inr (.inl (mem_flatMap.mpr ⟨⟨id, e⟩, ?_, ?_⟩))
    · exact (Range.mem_list _ _).mpr he
    · exact mem_map.mpr ⟨⟨key, ref⟩, (Range.mem_list _ _).mpr hkey, rfl⟩

theorem occupant_inv (hocc : r'.occupant id key = some ref) : r.occupant id key = some ref ∨
      ∃ sl, o = .attach key sl ∧ sl.session.identity.clusterID = id ∧ ref = r.heap.length ∧
        r'.heap = r.heap ++ [sl] ∧
        ∀ prev, r.slotAt id key = some prev → prev.generation ≤ sl.generation := by
  cases h with
  | quiet _ hentries _ _ => exact .inl ((Reg.occupant_congr hentries).symm.trans hocc)
  | @install k s _ hgen =>
    by_cases hk : id = s.session.identity.clusterID ∧ key = k
    · obtain ⟨rfl, rfl⟩ := hk
      rw [Reg.occupant_install_self] at hocc
      exact .inr ⟨s, rfl, rfl, (Option.some.inj hocc).symm, rfl, hgen⟩
    · exact .inl ((Reg.occupant_install_of_ne hk).symm.trans hocc)
  | refresh _ => exact .inl hocc
  | @release id' key' ref' now =>
    rcases @Reg.occupant_closeVictims cfg.grace now [⟨id', key', ref', ""⟩] r id key with h | ⟨h, _⟩
    · exact .inl (h.symm.trans hocc)
    · rw [h] at hocc
      cases hocc
  | @closeVictims vs now =>
    rcases @Reg.occupant_closeVictims cfg.grace now vs r id key with
      h | ⟨h, _⟩
    · exact .inl (h.symm.trans hocc)
    · rw [h] at hocc
      cases hocc
  | sweep => exact .inl (Reg.occupant_sweep.symm.trans hocc)
  | close _ => simp [Reg.occupant] at hocc

theorem heap_inv {sl' : Slot} (hsl : r'.heap[ref]? = some sl') : r.heap[ref]? = some sl' ∨
      (∃ key, o = .attach key sl' ∧ ref = r.heap.length ∧
        r'.occupant sl'.session.identity.clusterID key = some ref) ∨
      ∃ id key facts reported merged now sl, o = .apply id key ref facts reported merged now ∧
        r.occupant id key = some ref ∧ r.heap[ref]? = some sl ∧
        sl' = sl.refresh id facts reported merged now := by
  cases h with
  | quiet hheap _ _ _ => exact .inl (hheap ▸ hsl)
  | @install k s _ _ =>
    by_cases hlt : ref < r.heap.length
    · exact .inl ((List.getElem?_append_left hlt).symm.trans hsl)
    have hsl : (r.heap ++ [s])[ref]? = some sl' := hsl
    have href : ref = r.heap.length := by
      have hlen : ref < (r.heap ++ [s]).length := (List.getElem?_eq_some_iff.mp hsl).1
      rw [length_append, length_singleton] at hlen
      exact Nat.le_antisymm (Nat.lt_succ_iff.mp hlen) (Nat.not_lt.mp hlt)
    subst href
    have hs : s = sl' := by simpa using hsl
    subst hs
    exact .inr (.inl ⟨k, rfl, rfl, Reg.occupant_install_self⟩)
  | @refresh id key ref' facts reported merged now ent sl hh =>
    obtain ⟨hent, hkey, hold⟩ := Reg.holder_eq_some.mp hh
    by_cases href : ref' = ref
    · subst href
      have hlt : ref' < r.heap.length := (List.getElem?_eq_some_iff.mp hold).1
      have hsl : (r.heap.set ref' (sl.refresh id facts reported merged now))[ref']? = some sl' :=
        hsl
      rw [List.getElem?_set_self hlt] at hsl
      exact .inr (.inr ⟨id, key, facts, reported, merged, now, sl, rfl,
        (Reg.occupant_of_lookup hent).trans hkey, hold, (Option.some.inj hsl).symm⟩)
    · exact .inl ((List.getElem?_set_ne href).symm.trans hsl)
  | release | closeVictims =>
    rw [Reg.heap_closeVictims] at hsl
    exact .inl hsl
  | sweep | close => exact .inl hsl

theorem heap_kept (hsl : r.heap[ref]? = some sl) :
    r'.heap[ref]? = some sl ∨ ∃ id facts reported merged now,
      r'.heap[ref]? = some (sl.refresh id facts reported merged now) := by
  cases h with
  | quiet hheap _ _ _ => exact .inl (hheap ▸ hsl)
  | @install k s _ _ =>
    have hlt : ref < r.heap.length := (List.getElem?_eq_some_iff.mp hsl).1
    exact .inl ((List.getElem?_append_left hlt).trans hsl)
  | @refresh id key ref' facts reported merged now ent s hh =>
    obtain ⟨_, _, hold⟩ := Reg.holder_eq_some.mp hh
    by_cases href : ref' = ref
    · subst href
      rw [hold] at hsl
      cases hsl
      have hlt : ref' < r.heap.length := (List.getElem?_eq_some_iff.mp hold).1
      exact .inr ⟨id, facts, reported, merged, now, List.getElem?_set_self hlt⟩
    · exact .inl ((List.getElem?_set_ne href).trans hsl)
  | release | closeVictims => exact .inl (by rw [Reg.heap_closeVictims]; exact hsl)
  | sweep | close => exact .inl hsl

/-- The session of a slot stays the same, and so do its generation and its serial. -/
theorem slot_kept (hsl : r.heap[ref]? = some sl) :
    ∃ sl', r'.heap[ref]? = some sl' ∧ sl'.session = sl.session ∧
      sl'.generation = sl.generation ∧ sl'.certSerial = sl.certSerial := by
  rcases h.heap_kept hsl with hsame | ⟨id, facts, reported, merged, now, hnew⟩
  · exact ⟨sl, hsame, rfl, rfl, rfl⟩
  refine ⟨_, hnew, ?_⟩
  unfold Slot.refresh
  split <;> exact ⟨rfl, rfl, rfl⟩

variable {e : Entry}

omit h in
theorem emptied_eq_false (he : r.entries.lookup id = some e) (hempty : e.slots = ∅) :
    emptied r r' id = false := by
  simp [emptied, he, hempty]

/-- An empty pool after a change was there before, or the change has emptied it and has
frozen the facts of a slot that was in it. -/
theorem empty_cases (he : r'.entries.lookup id = some e)
    (hempty : e.slots = ∅) : r.entries.lookup id = some e ∧ emptied r r' id = false ∨
      emptied r r' id = true ∧ ∃ key ref sl now, r.occupant id key = some ref ∧
        r.heap[ref]? = some sl ∧ reading o = some now ∧
        e.lastCluster = frozen sl.facts now := by
  have hsame : r.entries.lookup id = some e →
      r.entries.lookup id = some e ∧ emptied r r' id = false :=
    fun h => ⟨h, emptied_eq_false h hempty⟩
  have hteardown : ∀ vs now, r' = (Reg.closeVictims cfg.grace now vs r).2 → reading o = some now →
      r.entries.lookup id = some e ∧ emptied r r' id = false ∨
        emptied r r' id = true ∧ ∃ key ref sl now, r.occupant id key = some ref ∧
          r.heap[ref]? = some sl ∧ reading o = some now ∧
          e.lastCluster = frozen sl.facts now := by
    intro vs now hr hread
    rw [hr] at he
    rcases Reg.lookup_closeVictims he hempty with h | ⟨key, ref, sl, hocc, hsl, hlast⟩
    · exact .inl (hsame h)
    obtain ⟨e₀, he₀, hkey⟩ := Reg.exists_entry hocc
    refine .inr ⟨?_, key, ref, sl, now, hocc, hsl, hread, hlast⟩
    rw [← hr] at he
    simp [emptied, he₀, he, hempty, Reg.slots_ne_empty hkey]
  cases h with
  | quiet _ hentries _ _ => exact .inl (hsame (hentries ▸ he))
  | @install k s _ _ =>
    obtain ⟨rfl, rfl⟩ | ⟨_, hold⟩ := lookup_insert_cases he
    · exact absurd hempty (Reg.slots_ne_empty (lookup_insert _))
    · exact .inl (hsame hold)
  | refresh _ => exact .inl (hsame he)
  | release | closeVictims => exact hteardown _ _ rfl rfl
  | sweep =>
    rw [Reg.lookup_sweep, Option.filter_eq_some_iff] at he
    exact .inl (hsame he.1)
  | close _ =>
    cases he

theorem closed_kept (hclosed : r.closed = true) (hentries : r.entries = ∅) :
    r'.closed = true ∧ r'.entries = ∅ ∧ r'.heap.length = r.heap.length := by
  have hteardown : ∀ vs now, (Reg.closeVictims cfg.grace now vs r).2 = r := by
    intro vs now
    induction vs with
    | nil => rfl
    | cons v vs ih =>
      have hnone : r.holder v.id v.key v.slot = none := by simp [Reg.holder, hentries]
      unfold Reg.closeVictims
      rw [hnone]
      exact ih
  cases h with
  | quiet h1 h2 h3 _ => exact ⟨h3.trans hclosed, h2.trans hentries, congrArg List.length h1⟩
  | install hopen _ => rw [hclosed] at hopen; cases hopen
  | refresh _ => exact ⟨hclosed, hentries, length_set⟩
  | release | closeVictims => rw [hteardown]; exact ⟨hclosed, hentries, rfl⟩
  | sweep =>
    refine ⟨hclosed, ext_lookup fun id => ?_, rfl⟩
    rw [Reg.lookup_sweep, hentries, lookup_empty]
    rfl
  | close hopen => rw [hclosed] at hopen; cases hopen

/-- Only `Close` closes the registry, and it empties it. -/
theorem closed_inv (hclosed : r'.closed = true) : r.closed = true ∨ r'.entries = ∅ := by
  cases h with
  | quiet _ _ h3 _ => exact .inl (h3.symm.trans hclosed)
  | release | closeVictims => exact .inl (by rwa [Reg.closed_closeVictims] at hclosed)
  | install | refresh | sweep => exact .inl hclosed
  | close _ => exact .inr rfl

end Change

/-! ## The invariant -/

/-- The labels have the operator's value for every key that the operator has set. -/
def Covers (cfg : Config) (id : String) (labels : StrMap String) : Prop :=
  ∀ k v, (cfg.owned id).lookup k = some v → labels.lookup k = some v

/-- The cluster is the one of the certificate, with the labels of the operator. -/
def Branded (cfg : Config) (id : String) (c : Cluster) : Prop :=
  c.id = id ∧ Covers cfg id c.labels

/-- What every state of the registry keeps. -/
structure Sound (cfg : Config) (w : World ι) : Prop where
  live : ∀ {id key : String} {ref : Ref}, w.reg.occupant id key = some ref →
    ∃ sl, w.reg.heap[ref]? = some sl ∧ sl.session.identity.clusterID = id
  branded : ∀ {ref : Ref} {sl : Slot}, w.reg.heap[ref]? = some sl →
    Branded cfg sl.session.identity.clusterID sl.facts
  frozen : ∀ {id : String} {e : Entry}, w.reg.entries.lookup id = some e → e.slots = ∅ →
    Branded cfg id e.lastCluster ∧ e.lastCluster.state = .disconnected ∧
      ∃ t, w.log.leftAt id = some t ∧ e.lastCluster.lastSeen ≤ t
  kept : ∀ ref : Ref, ref < w.reg.heap.length →
    (∃ id key, w.reg.occupant id key = some ref) ∨ ref ∈ w.log.released ∨
      ref ∈ w.log.closing ∨ ∃ i, (i, ref) ∈ w.log.doomed
  shut : w.reg.closed = true → w.reg.entries = ∅

theorem sound_empty (cfg : Config) : Sound cfg (empty ι) where
  live h := by simp [empty, Reg.occupant] at h
  branded h := by simp [empty] at h
  frozen h := by simp [empty] at h
  kept ref h := absurd h (Nat.not_lt_zero ref)
  shut h := by cases h

/-- What the arguments of an operation have to be at the time `t`: the calls take them
from the labels of the operator and from the clock. -/
def Fits (cfg : Config) (t : Int) : RegOp → Prop
  | .attach _ sl => Branded cfg sl.session.identity.clusterID sl.facts
  | .apply id _ _ _ _ merged _ => Covers cfg id merged
  | .release _ _ _ now => now ≤ t
  | .closeVictims _ now => now ≤ t
  | _ => True

theorem Fits.reading_le {t now : Int} (h : Fits cfg t o) (hr : reading o = some now) : now ≤ t := by
  cases o <;> cases hr <;> exact h

section Step

variable {w : World ι} {i : ι} {now : Int} {id : String} {sl : Slot}

theorem Branded.refresh {facts : Facts} {reported merged : StrMap String} {t : Int}
    (h : Branded cfg id sl.facts) (hm : Covers cfg id merged) :
    Branded cfg id (sl.refresh id facts reported merged t).facts := by
  unfold Slot.refresh
  split
  · exact ⟨rfl, hm⟩
  · exact ⟨h.1, hm⟩

theorem session_refresh (sl : Slot) (id : String) (facts : Facts)
    (reported merged : StrMap String) (t : Int) :
    (sl.refresh id facts reported merged t).session = sl.session := by
  unfold Slot.refresh
  split <;> rfl

variable {ref : Ref}

variable (hw : Sound cfg w)

include hw

theorem Sound.live_step (h : Change cfg env w.reg o a r') {key : String}
    (hocc : r'.occupant id key = some ref) :
    ∃ sl, r'.heap[ref]? = some sl ∧ sl.session.identity.clusterID = id := by
  rcases h.occupant_inv hocc with hold | ⟨sl, _, hid, href, hheap, _⟩
  · obtain ⟨sl, hsl, hid⟩ := hw.live hold
    obtain ⟨sl', hsl', hsession, _⟩ := h.slot_kept hsl
    exact ⟨sl', hsl', by rw [hsession]; exact hid⟩
  · refine ⟨sl, ?_, hid⟩
    rw [hheap, href]
    simp

theorem Sound.branded_step (hfit : Fits cfg now o)
    (h : Change cfg env w.reg o a r') (hsl : r'.heap[ref]? = some sl) :
    Branded cfg sl.session.identity.clusterID sl.facts := by
  rcases h.heap_inv hsl with hold | ⟨key, rfl, _, _⟩ |
    ⟨id, key, facts, reported, merged, t, s, rfl, hocc, hs, rfl⟩
  · exact hw.branded hold
  · exact hfit
  obtain ⟨s', hs', hid⟩ := hw.live hocc
  rw [hs] at hs'
  cases hs'
  rw [session_refresh, hid]
  refine .refresh ?_ hfit
  rw [← hid]
  exact hw.branded hs

theorem Sound.frozen_step (hfit : Fits cfg now o)
    (h : Change cfg env w.reg o a r') {e : Entry} (he : r'.entries.lookup id = some e)
    (hempty : e.slots = ∅) : Branded cfg id e.lastCluster ∧ e.lastCluster.state = .disconnected ∧
      ∃ t, (w.log.note i o a now w.reg r').leftAt id = some t ∧ e.lastCluster.lastSeen ≤ t := by
  rcases h.empty_cases he hempty with ⟨hold, hem⟩ | ⟨hem, key, ref, sl, t, hocc, hsl, hread, hlast⟩
  · obtain ⟨h1, h2, t, ht, hle⟩ := hw.frozen hold hempty
    exact ⟨h1, h2, t, by simp [Log.note, hem, ht], hle⟩
  obtain ⟨sl', hsl', hid⟩ := hw.live hocc
  rw [hsl] at hsl'
  cases hsl'
  have hb := hw.branded hsl
  rw [hid] at hb
  rw [hlast]
  exact ⟨hb, rfl, now, by simp [Log.note, hem], hfit.reading_le hread⟩

theorem Sound.kept_step (h : Change cfg env w.reg o a r') (href : ref < r'.heap.length) :
    (∃ id key, r'.occupant id key = some ref) ∨ ref ∈ (w.log.note i o a now w.reg r').released ∨
      ref ∈ (w.log.note i o a now w.reg r').closing ∨
      ∃ j, (j, ref) ∈ (w.log.note i o a now w.reg r').doomed := by
  have hold : ref < w.reg.heap.length ∨ ∃ id key, r'.occupant id key = some ref := by
    obtain ⟨sl, hsl⟩ : ∃ sl, r'.heap[ref]? = some sl := ⟨_, List.getElem?_eq_getElem href⟩
    rcases h.heap_inv hsl with hold | ⟨key, _, _, hocc⟩ | ⟨_, _, _, _, _, _, s, _, _, hs, _⟩
    · exact .inl (List.getElem?_eq_some_iff.mp hold).1
    · exact .inr ⟨_, key, hocc⟩
    · exact .inl (List.getElem?_eq_some_iff.mp hs).1
  rcases hold with hold | hpool
  · rcases hw.kept ref hold with ⟨id, key, hocc⟩ | hrel | hclose | ⟨j, hdoom⟩
    · obtain ⟨sl, hsl, _⟩ := hw.live hocc
      rcases h.occupant_cases hocc hsl with hin | hdoom | hrel
      · exact .inl ⟨id, key, hin⟩
      · refine .inr (.inr (.inr ⟨i, mem_append_left _ ?_⟩))
        exact mem_map.mpr ⟨ref, hdoom, rfl⟩
      · exact .inr (.inl (mem_append_left _ hrel))
    · exact .inr (.inl (mem_append_right _ hrel))
    · exact .inr (.inr (.inl (mem_append_right _ hclose)))
    · exact .inr (.inr (.inr ⟨j, mem_append_right _ hdoom⟩))
  · exact .inl hpool

theorem Sound.step (hfit : Fits cfg now o) (h : Change cfg env w.reg o a r') :
    Sound cfg (⟨r', w.log.note i o a now w.reg r'⟩ : World ι) where
  live hocc := hw.live_step h hocc
  branded hsl := hw.branded_step hfit h hsl
  frozen he hempty := hw.frozen_step hfit h he hempty
  kept _ href := hw.kept_step h href
  shut hclosed := by
    rcases h.closed_inv hclosed with hold | hempty
    · exact (h.closed_kept hold (hw.shut hold)).2.1
    · exact hempty

end Step

/-! ## What a call owes -/

/-- Every slot that the sections of call `i` have doomed is closed by now, except for
the slots `refs`. -/
def Owes (i : ι) (refs : List Ref) (s : Int × World ι) : Prop :=
  ∀ ref, (i, ref) ∈ s.2.log.doomed → ref ∈ s.2.log.closing ∨ ref ∈ refs

/-- The clock goes on, the log grows, and each call dooms slots in its own name. -/
def pact (ι : Type) (cfg : Config) : Pact RegOp ι Env (Int × World ι) where
  inv s := Sound cfg s.2
  cond _ _ _ _ := True
  rely i s t := s.1 ≤ t.1 ∧ s.2.log.closing ⊆ t.2.log.closing ∧
    ∀ ref, (i, ref) ∈ t.2.log.doomed → (i, ref) ∈ s.2.log.doomed
  guar i s t := s.1 ≤ t.1 ∧ s.2.log.closing ⊆ t.2.log.closing ∧
    ∀ j, j ≠ i → ∀ ref, (j, ref) ∈ t.2.log.doomed → (j, ref) ∈ s.2.log.doomed
  rely_refl _ _ := ⟨le_refl _, List.Subset.refl _, fun _ h => h⟩
  rely_trans _ _ _ _ h k :=
    ⟨h.1.trans k.1, List.Subset.trans h.2.1 k.2.1, fun ref hr => h.2.2 ref (k.2.2 ref hr)⟩
  rely_of_guar _ j _ _ hne _ _ h := ⟨h.1, h.2.1, h.2.2 j (Ne.symm hne)⟩

/-- The program of call `i` keeps the pact, and ends as it says. -/
abbrev Keeps (cfg : Config) (i : ι) {α : Type} := Holds (α := α) (regMachine cfg) (pact ι cfg) i

variable {i : ι} {s t u : Int × World ι} {α β : Type} {refs : List Ref}

theorem Owes.stable (h : Owes i refs s) (hr : (pact ι cfg).rely i s t) : Owes i refs t := by
  intro ref hdoom
  rcases h ref (hr.2.2 ref hdoom) with hclose | hrest
  · exact .inl (hr.2.1 hclose)
  · exact .inr hrest

theorem op_step (hs : Sound cfg s.2) (hfit : Fits cfg s.1 o)
    (h : (regMachine cfg).act i o env s = some (a, t)) :
    Sound cfg t.2 ∧ (pact ι cfg).guar i s t := by
  obtain ⟨hle, _, hchange, hlog⟩ := act_cases h
  have hfit : Fits cfg t.1 o := by
    cases o with
    | release | closeVictims => exact le_trans hfit hle
    | _ => exact hfit
  have hnext := hs.step (i := i) hfit hchange
  rw [← hlog] at hnext
  refine ⟨hnext, hle, ?_, fun j hj ref hdoom => ?_⟩
  · rw [hlog]
    exact subset_append_right _ _
  rw [hlog] at hdoom
  rcases mem_append.mp hdoom with hnew | hold
  · obtain ⟨_, _, hpair⟩ := mem_map.mp hnew
    cases hpair
    exact absurd rfl hj
  · exact hold

theorem Owes.step (h : (regMachine cfg).act i o env s = some (a, t)) (ho : Owes i refs s) :
    Owes i (dooms o a ++ refs) t := by
  obtain ⟨_, _, _, hlog⟩ := act_cases h
  intro ref hdoom
  rw [hlog] at hdoom ⊢
  rcases mem_append.mp hdoom with hnew | hold
  · obtain ⟨x, hx, hpair⟩ := mem_map.mp hnew
    cases hpair
    exact .inr (mem_append_left _ hx)
  · rcases ho ref hold with hclose | hrest
    · exact .inl (mem_append_right _ hclose)
    · exact .inr (mem_append_right _ hrest)

theorem Owes.pay {ref : Ref} {x : RegAns (.closeSession ref)}
    (h : (regMachine cfg).act i (.closeSession ref) env s = some (x, t))
    (ho : Owes i (ref :: refs) s) : Owes i refs t := by
  obtain ⟨_, _, _, hlog⟩ := act_cases h
  intro y hdoom
  rw [hlog] at hdoom ⊢
  rcases ho y hdoom with hclose | hrest
  · exact .inl (mem_append_right _ hclose)
  rcases mem_cons.mp hrest with rfl | hrest
  · exact .inl mem_cons_self
  · exact .inr hrest

variable {Q : α → Int × World ι → Prop} {k : RegAns o → Call α}

theorem op_rule (hs : Owes i refs s) (hfit : ∀ t, s.1 ≤ t → Fits cfg t o)
    (hk : ∀ env a t u, s.1 ≤ t.1 → Sound cfg t.2 → Owes i refs t →
      (regMachine cfg).act i o env t = some (a, u) → Sound cfg u.2 →
      Owes i (dooms o a ++ refs) u → Keeps cfg i (k a) Q u) : Keeps cfg i (.op o k) Q s := by
  intro t hrely hinv env _ a u hact
  obtain ⟨hnext, hguar⟩ := op_step hinv (hfit t.1 hrely.1) hact
  exact ⟨hnext, hguar, hk env a t u hrely.1 hinv (hs.stable hrely) hact hnext
    ((hs.stable hrely).step hact)⟩

theorem quiet_rule (hs : Owes i [] s) (hfit : ∀ t, Fits cfg t o) (hquiet : ∀ a, dooms o a = [])
    (hk : ∀ env a t u, (regMachine cfg).act i o env t = some (a, u) → Sound cfg u.2 →
      s.1 ≤ u.1 → Owes i [] u → Keeps cfg i (k a) Q u) : Keeps cfg i (.op o k) Q s := by
  refine op_rule hs (fun t _ => hfit t) fun env a t u hle _ _ hact hu howes => ?_
  rw [hquiet a] at howes
  exact hk env a t u hact hu (hle.trans (act_cases hact).1) howes

theorem done_rule {x : α} (hs : Owes i [] s) : Keeps cfg i (.done x) (fun _ u => Owes i [] u) s :=
  fun _ hrely _ => hs.stable hrely

theorem clock_rule {k : Int → Call α} (hs : Owes i [] s)
    (hk : ∀ now u, Sound cfg u.2 → now ≤ u.1 → Owes i [] u → Keeps cfg i (k now) Q u) :
    Keeps cfg i (.op RegOp.clock k) Q s := by
  refine quiet_rule hs (fun _ => trivial) (fun _ => rfl) fun env now t u hact hu _ howes => ?_
  obtain ⟨_, hnow, hact'⟩ := clocked_act hact
  have hread : now = env.now := (congrArg Prod.fst (Option.some.inj hact')).symm
  exact hk now u hu (by rw [hread, hnow]) howes

/-! ## The calls -/

theorem closeSessions_holds (hs : Owes i refs s) :
    Keeps cfg i (closeSessions refs) (fun _ u => Owes i [] u) s := by
  induction refs generalizing s with
  | nil => exact done_rule hs
  | cons ref refs ih =>
    refine op_rule hs (fun _ _ => trivial) fun env x t u _ _ ht hact _ _ => ?_
    exact ih (ht.pay hact)

variable (id : String)

theorem covers_overlay (reported : StrMap String) :
    Covers cfg id (overlay reported (cfg.owned id)) := by
  intro k v hv
  unfold overlay
  split
  · rename_i hempty
    rw [hempty, lookup_empty] at hv
    cases hv
  · rw [lookup_union_left (mem_of_lookup_eq_some hv)]
    exact hv

theorem mergeLabels_holds (reported : StrMap String) (hs : Owes i [] s) :
    Keeps cfg i (mergeLabels cfg id reported)
      (fun x u => Owes i [] u ∧ ∀ merged, x = some merged → Covers cfg id merged) s := by
  unfold mergeLabels
  cases hcfg : cfg.authoritativeLabels with
  | none =>
    refine .done fun t hrely _ => ⟨hs.stable hrely, fun merged hm => ?_⟩
    intro k v hv
    simp [Config.owned, hcfg] at hv
  | some labels =>
    refine quiet_rule hs (fun _ => trivial) (fun _ => rfl) fun env owned t u hact hu _ howes => ?_
    refine .done fun v hrely _ => ⟨howes.stable hrely, fun merged hm => ?_⟩
    obtain ⟨x, hx, rfl⟩ := Option.map_eq_some_iff.mp hm
    obtain ⟨_, _, hact'⟩ := clocked_act hact
    have hans : owned = if env.labelsFail then none else some (cfg.owned id) :=
      (congrArg Prod.fst (Option.some.inj hact')).symm
    rw [hans] at hx
    split at hx
    · cases hx
    · cases hx
      exact covers_overlay id reported

variable (ident : Identity)

theorem clusterFrom_holds (reported : Cluster)
    (hinv : Sound cfg s.2) (hs : Owes i [] s) : Keeps cfg i (clusterFrom cfg id ident reported)
      (fun x u => Owes i [] u ∧ ∀ c, x = some c → Branded cfg id c) s := by
  refine (mergeLabels_holds id reported.labels hs).seq hinv ?_
  rintro (_ | merged) t _ ⟨howes, hmerged⟩
  · exact .done fun u hrely _ => ⟨howes.stable hrely, fun c hc => by cases hc⟩
  · refine clock_rule howes fun now u _ _ howes' => ?_
    refine .done fun v hrely _ => ⟨howes'.stable hrely, fun c hc => ?_⟩
    cases hc
    exact ⟨rfl, hmerged merged rfl⟩

theorem slotKey_holds (hs : Owes i [] s) :
    Keeps cfg i (slotKey ident) (fun _ u => Owes i [] u) s := by
  unfold slotKey
  split
  · exact done_rule hs
  split
  · exact done_rule hs
  · exact quiet_rule hs (fun _ => trivial) (fun _ => rfl) fun _ _ _ _ _ _ _ howes =>
      done_rule howes

theorem onSession_holds (session : Option Session) (hs : Owes i [] s) :
    Keeps cfg i (onSession cfg session) (fun _ u => Owes i [] u) s := by
  unfold onSession
  cases session with
  | none => exact done_rule hs
  | some session =>
    dsimp only
    split
    · exact done_rule hs
    simp only [Prog.call_bind]
    refine quiet_rule hs (fun _ => trivial) (fun _ => rfl) fun _ closed _ s₁ _ _ _ h₁ => ?_
    cases closed with
    | true => exact done_rule h₁
    | false =>
      refine quiet_rule h₁ (fun _ => trivial) (fun _ => rfl) fun _ reply _ s₂ _ _ _ h₂ => ?_
      cases reply with
      | none => exact done_rule h₂
      | some facts =>
        refine quiet_rule h₂ (fun _ => trivial) (fun _ => rfl) fun _ gen _ s₃ _ hinv₃ _ h₃ => ?_
        refine (slotKey_holds _ h₃).seq hinv₃ fun key s₄ hinv₄ h₄ => ?_
        refine (clusterFrom_holds _ _ _ hinv₄ h₄).seq hinv₄ ?_
        rintro (_ | cluster) s₅ _ ⟨h₅, hbranded⟩
        · exact done_rule h₅
        · refine op_rule h₅ (fun _ _ => hbranded cluster rfl)
            fun env reply t u _ _ _ _ _ howes => ?_
          -- the slot that the new one has displaced is all that the call owes
          rcases reply with err | ⟨ref, _ | prev⟩
          · exact done_rule howes
          · exact done_rule howes
          · refine op_rule howes (fun _ _ => trivial) fun env x t u _ _ ht hact _ _ => ?_
            exact done_rule (ht.pay hact)

/-- The end of `applyFacts`, with the labels that `mergeLabels` gives. -/
def applyMerged (id key : String) (ref : Ref) (facts : Facts) (reported : StrMap String)
    (now : Int) : Option (StrMap String) → Call Unit
  | none => return ()
  | some merged => (Prog.call (RegOp.apply id key ref facts reported merged now) : Call Unit)

variable (id key : String)

theorem applyFacts_holds (ref : Ref) (facts : Facts) (hs : Owes i [] s) :
    Keeps cfg i (applyFacts cfg id key ref facts) (fun _ u => Owes i [] u) s := by
  refine clock_rule hs fun now s₁ hinv₁ _ h₁ => ?_
  have hrest : ∀ reported s₂, Sound cfg s₂.2 → Owes i [] s₂ →
      Keeps cfg i
        (mergeLabels cfg id reported >>= applyMerged id key ref facts reported now)
        (fun _ u => Owes i [] u) s₂ := by
    intro reported s₂ hinv₂ h₂
    refine (mergeLabels_holds id reported h₂).seq hinv₂ ?_
    rintro (_ | merged) s₃ _ ⟨h₃, hcovers⟩
    · exact done_rule h₃
    · exact quiet_rule h₃ (fun _ => hcovers merged rfl) (fun _ => rfl)
        fun _ _ _ _ _ _ _ h₄ => done_rule h₄
  cases hc : facts.changed with
  | true => exact hrest facts.cluster.labels s₁ hinv₁ h₁
  | false =>
    exact quiet_rule h₁ (fun _ => trivial) (fun _ => rfl) fun _ reported _ s₂ _ hinv₂ _ h₂ =>
      hrest reported s₂ hinv₂ h₂

theorem pollFacts_holds (ref : Ref) (session : Session) (ticks : Nat)
    (hs : Owes i [] s) : Keeps cfg i (pollFacts cfg id key ref session ticks)
      (fun _ u => Owes i [] u) s := by
  induction ticks generalizing s with
  | zero => exact done_rule hs
  | succ ticks ih =>
    refine quiet_rule hs (fun _ => trivial) (fun _ => rfl) fun _ fp _ s₁ _ _ _ h₁ => ?_
    refine quiet_rule h₁ (fun _ => trivial) (fun _ => rfl) fun _ reply _ s₂ _ hinv₂ _ h₂ => ?_
    cases reply with
    | none => exact ih h₂
    | some facts =>
      have happly : Keeps cfg i (applyFacts cfg id key ref facts) _ s₂ :=
        applyFacts_holds id key ref facts h₂
      exact .bind (f := fun _ => pollFacts cfg id key ref session ticks) hinv₂
        (Holds.mono happly fun _ _ _ h₃ => ih h₃)

theorem release_holds (ref : Ref) (hs : Owes i [] s) :
    Keeps cfg i (release id key ref) (fun _ u => Owes i [] u) s := by
  refine clock_rule hs fun now s₁ _ hnow h₁ => ?_
  exact op_rule h₁ (fun _ hle => le_trans hnow hle) fun _ _ _ _ _ _ _ _ _ h₂ => done_rule h₂

variable {isRevoked : String → Call Bool}

theorem judge_holds (cs : List Victim) (verdict : StrMap Bool)
    (hr : ∀ serial s, Sound cfg s.2 → Owes i [] s →
      Keeps cfg i (isRevoked serial) (fun _ u => Owes i [] u) s)
    (hinv : Sound cfg s.2) (hs : Owes i [] s) : Keeps cfg i (judge isRevoked cs verdict)
      (fun _ u => Owes i [] u) s := by
  induction cs generalizing s verdict with
  | nil => exact done_rule hs
  | cons c cs ih =>
    unfold judge
    have hrest : ∀ revoked s₁, Sound cfg s₁.2 → Owes i [] s₁ →
        Keeps cfg i
          (judge isRevoked cs (verdict.insert c.certSerial revoked) >>= fun victims =>
            (return if revoked then c :: victims else victims : Call (List Victim)))
          (fun _ u => Owes i [] u) s₁ :=
      fun revoked s₁ hinv₁ h₁ => Holds.map (ih _ hinv₁ h₁)
    cases verdict.lookup c.certSerial with
    | some revoked => exact hrest revoked s hinv hs
    | none =>
      exact (hr c.certSerial s hinv hs).seq hinv fun revoked s₁ hinv₁ h₁ =>
        hrest revoked s₁ hinv₁ h₁

theorem closeVictims_holds (victims : List Victim) (hs : Owes i [] s) :
    Keeps cfg i (closeVictims victims) (fun _ u => Owes i [] u) s := by
  unfold closeVictims
  split
  · exact done_rule hs
  refine clock_rule hs fun now s₁ _ hnow h₁ => ?_
  refine op_rule h₁ (fun _ hle => le_trans hnow hle) fun _ closures _ s₂ _ _ _ _ hinv₂ h₂ => ?_
  rw [append_nil] at h₂
  exact .map (closeSessions_holds h₂)

theorem closeRevokedBy_holds (hr : ∀ serial s, Sound cfg s.2 → Owes i [] s →
      Keeps cfg i (isRevoked serial) (fun _ u => Owes i [] u) s) (hs : Owes i [] s) :
    Keeps cfg i (closeRevokedBy isRevoked) (fun _ u => Owes i [] u) s := by
  refine quiet_rule hs (fun _ => trivial) (fun _ => rfl) fun _ cs _ s₁ _ hinv₁ _ h₁ => ?_
  exact .bind (f := closeVictims) hinv₁ (Holds.mono (judge_holds cs ∅ hr hinv₁ h₁)
    fun victims _ _ h₂ => closeVictims_holds victims h₂)

theorem sweep_holds (hs : Owes i [] s) : Keeps cfg i sweep (fun _ u => Owes i [] u) s := by
  refine clock_rule hs fun now s₁ _ _ h₁ => ?_
  exact quiet_rule h₁ (fun _ => trivial) (fun _ => rfl) fun _ _ _ _ _ _ _ h₂ => done_rule h₂

theorem close_holds (hs : Owes i [] s) : Keeps cfg i close (fun _ u => Owes i [] u) s := by
  refine op_rule hs (fun _ _ => trivial) fun _ targets _ s₁ _ _ _ _ _ h₁ => ?_
  rw [append_nil] at h₁
  exact closeSessions_holds h₁

/-- Every call keeps the invariant, and owes nothing when it ends. -/
theorem program_holds (q : Request) (hs : Owes i [] s) :
    Keeps cfg i (q.program cfg) (fun _ u => Owes i [] u) s := by
  cases q with
  | onSession session => exact .map (onSession_holds session hs)
  | pollFacts key ref session ticks => exact .map (pollFacts_holds _ key ref session ticks hs)
  | release id key ref => exact .map (release_holds id key ref hs)
  | closeRevokedBy =>
    refine .map (closeRevokedBy_holds (fun serial s₁ _ h₁ => ?_) hs)
    exact quiet_rule h₁ (fun _ => trivial) (fun _ => rfl) fun _ _ _ _ _ _ _ h₂ => done_rule h₂
  | closeRevoked serials =>
    refine .map ?_
    unfold closeRevoked
    split
    · exact done_rule hs
    · exact closeRevokedBy_holds (fun serial s₁ _ h₁ => done_rule h₁) hs
  | sweep => exact .map (sweep_holds hs)
  | close => exact .map (close_holds hs)

/-- Every state that a run reaches is sound, and every call that has ended owes nothing. -/
theorem run_sound [DecidableEq ι] {t₀ : Int} {calls : ι → Request} {ls : List (ι × Env)}
    {c : Conf RegAns ι (Int × World ι) Reply}
    (hrun : run (regMachine cfg) (system cfg t₀ calls) ls = some c) :
    Sound cfg c.shared.2 ∧ ∀ i x, c.thread i = .done x → Owes i [] c.shared := by
  have hinv : (pact ι cfg).inv (system cfg t₀ calls).shared := sound_empty cfg
  have hall : ∀ j, Holds (regMachine cfg) (pact ι cfg) j ((system cfg t₀ calls).thread j)
      (fun _ u => Owes j [] u) (system cfg t₀ calls).shared :=
    fun j => program_holds (calls j) fun ref h => by cases h
  refine ⟨(run_holds hinv hall (meets_true _ _) hrun).1, fun i x hd => ?_⟩
  exact done_of_run hinv hall (meets_true _ _) hrun hd

/-! ## Calls that move no session -/

/-- The sections that put sessions into the pools or take them out. -/
def RegOp.moves : RegOp → Bool
  | .attach _ _ => true
  | .release .. => true
  | .closeVictims _ _ => true
  | .close => true
  | _ => false

/-- The operations that leave every session in its pool. -/
abbrev Still (o : RegOp) : Prop := o.moves = false

theorem mergeLabels_still (cfg : Config) (id : String) (reported : StrMap String) :
    (mergeLabels cfg id reported).Only Still := by
  unfold mergeLabels
  cases cfg.authoritativeLabels with
  | none => exact trivial
  | some labels => exact ⟨rfl, fun _ => trivial⟩

theorem clusterFrom_still (cfg : Config) (id : String) (ident : Identity) (reported : Cluster) :
    (clusterFrom cfg id ident reported).Only Still := by
  refine .bind (mergeLabels_still cfg id reported.labels) fun labels => ?_
  cases labels with
  | none => exact trivial
  | some labels => exact ⟨rfl, fun _ => trivial⟩

theorem slotKey_still : (slotKey ident).Only Still := by
  unfold slotKey
  split
  · exact trivial
  split
  · exact trivial
  · exact ⟨rfl, fun _ => trivial⟩

theorem applyFacts_still (cfg : Config) (id key : String) (ref : Ref) (facts : Facts) :
    (applyFacts cfg id key ref facts).Only Still := by
  refine ⟨rfl, fun now => ?_⟩
  have hrest : ∀ reported, (mergeLabels cfg id reported >>=
      applyMerged id key ref facts reported now).Only Still := by
    intro reported
    refine .bind (mergeLabels_still cfg id reported) fun merged => ?_
    cases merged with
    | none => exact trivial
    | some merged => exact ⟨rfl, fun _ => trivial⟩
  cases hc : facts.changed with
  | true => exact hrest facts.cluster.labels
  | false => exact ⟨rfl, hrest⟩

theorem pollFacts_still (cfg : Config) (id key : String) (ref : Ref) (s : Session)
    (ticks : Nat) : (pollFacts cfg id key ref s ticks).Only Still := by
  induction ticks with
  | zero => exact trivial
  | succ ticks ih =>
    simp only [pollFacts, Prog.call_bind]
    refine ⟨rfl, fun fp => ⟨rfl, fun reply => ?_⟩⟩
    cases reply with
    | none => exact ih
    | some facts => exact .bind (applyFacts_still cfg id key ref facts) fun _ => ih

theorem closeSessions_still (refs : List Ref) : (closeSessions refs).Only Still := by
  induction refs with
  | nil => exact trivial
  | cons ref refs ih => exact ⟨rfl, fun _ => ih⟩

theorem judge_still (isRevoked : String → Call Bool) (hr : ∀ serial, (isRevoked serial).Only Still)
    (cs : List Victim) (verdict : StrMap Bool) : (judge isRevoked cs verdict).Only Still := by
  induction cs generalizing verdict with
  | nil => exact trivial
  | cons c cs ih =>
    unfold judge
    have hrest : ∀ revoked, (judge isRevoked cs (verdict.insert c.certSerial revoked) >>=
        fun victims => (return if revoked then c :: victims else victims :
          Call (List Victim))).Only Still :=
      fun revoked => Prog.Only.bind (ih _) fun _ => trivial
    cases verdict.lookup c.certSerial with
    | some revoked => exact hrest revoked
    | none => exact .bind (hr c.certSerial) hrest

end prom_fleet.registry
