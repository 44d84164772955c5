-- A spoke cannot rename or relabel itself. Two runs of the registry in which the spokes
-- report other cluster ids, and other values for keys that the operator has set, keep
-- states that differ only in what the spokes have reported.
import PromFleet.RegistryLaws
import PromFleet.RegistryViews
import PromFleet.Twins

namespace prom_fleet.registry

open interleave List Finmap Prog map_range fleet

/-! ## Alike -/

/-- The two maps have the same value for every key that is not hidden. -/
def AlikeOff (hidden : String → Prop) (a b : StrMap String) : Prop :=
  ∀ k, ¬hidden k → a.lookup k = b.lookup k

variable {hidden : String → Prop}

theorem AlikeOff.refl (a : StrMap String) : AlikeOff hidden a a :=
  fun _ _ => rfl

/-- The same cluster up to labels that are hidden. -/
def ClusterAlike (hidden : String → Prop) (c c' : Cluster) : Prop :=
  c' = { c with labels := c'.labels } ∧ AlikeOff hidden c.labels c'.labels

theorem ClusterAlike.refl (c : Cluster) : ClusterAlike hidden c c :=
  ⟨rfl, AlikeOff.refl _⟩

/-- The same reply of a spoke, up to its cluster id and to labels that are hidden. -/
def FactsAlike (hidden : String → Prop) (f f' : Facts) : Prop :=
  f' = { f with cluster := { f.cluster with id := f'.cluster.id, labels := f'.cluster.labels } } ∧
    AlikeOff hidden f.cluster.labels f'.cluster.labels

/-- The keys for which a view of the cluster can still show what a spoke has reported. -/
def Hidden (cfg : Config) (differ : String → String → Prop) (id k : String) : Prop :=
  differ id k ∧ k ∉ cfg.owned id

variable {id : String}

theorem alikeOff_overlay {cfg : Config} {differ : String → String → Prop} {a b : StrMap String}
    (h : AlikeOff (differ id) a b) :
    AlikeOff (Hidden cfg differ id) (overlay a (cfg.owned id)) (overlay b (cfg.owned id)) := by
  intro k hk
  unfold overlay
  split_ifs with hempty
  · refine h k fun hd => hk ⟨hd, ?_⟩
    rw [hempty]
    exact notMem_empty
  · by_cases hown : k ∈ cfg.owned id
    · rw [lookup_union_left hown, lookup_union_left hown]
    · rw [lookup_union_right hown, lookup_union_right hown]
      exact h k fun hd => hk ⟨hd, hown⟩

/-- The two orders visit the clusters in the same order, and so the slots of a pool. -/
def SameOrder (o o' : Orders) : Prop :=
  (∀ m m' : StrMap Entry, m.keys = m'.keys →
    (o.entries.list m).map Sigma.fst = (o'.entries.list m').map Sigma.fst) ∧
  ∀ m, o.slots.list m = o'.slots.list m

section

variable (cfg : Config) (differ : String → String → Prop) (owner : Ref → String)

/-- What the spokes of a cluster report in two environments differs in their cluster id
and in the labels that `differ` names for the cluster, and in nothing else. -/
structure EnvAlike (e e' : Env) : Prop where
  now : e'.now = e.now
  describe : ∀ s fp,
    Option.Rel (FactsAlike (differ s.identity.clusterID)) (e.describe s fp) (e'.describe s fp)
  generation : e'.generation = e.generation
  labelsFail : e'.labelsFail = e.labelsFail
  revoked : e'.revoked = e.revoked
  orders : SameOrder e.orders e'.orders

structure SlotAlike (sl sl' : Slot) : Prop where
  same : sl' = { sl with facts := sl'.facts, spokeLabels := sl'.spokeLabels }
  facts : ClusterAlike (Hidden cfg differ sl.session.identity.clusterID) sl.facts sl'.facts
  spokeLabels : AlikeOff (differ sl.session.identity.clusterID) sl.spokeLabels sl'.spokeLabels

structure EntryAlike (id : String) (e e' : Entry) : Prop where
  slots : e'.slots = e.slots
  lastCluster : ClusterAlike (Hidden cfg differ id) e.lastCluster e'.lastCluster

structure RegAlike (r r' : Reg) : Prop where
  closed : r'.closed = r.closed
  anonSeq : r'.anonSeq = r.anonSeq
  length : r'.heap.length = r.heap.length
  heap : ∀ ref : Ref, Option.Rel (SlotAlike cfg differ) r.heap[ref]? r'.heap[ref]?
  entries : ∀ id, Option.Rel (EntryAlike cfg differ id) (r.entries.lookup id)
    (r'.entries.lookup id)

/-- Operations that take nothing of what a spoke has reported. -/
def plain : RegOp → Bool
  | .attach _ _ => false
  | .apply .. => false
  | _ => true

inductive OpAlike : RegOp → RegOp → Prop
  | same {o : RegOp} : plain o = true → OpAlike o o
  | attach {key : String} {sl sl' : Slot} : SlotAlike cfg differ sl sl' →
      OpAlike (.attach key sl) (.attach key sl')
  | apply {id key : String} {ref : Ref} {facts facts' : Facts}
      {reported reported' merged merged' : StrMap String} {now : Int} :
      FactsAlike (differ id) facts facts' →
      (owner ref = id → AlikeOff (differ id) reported reported' ∧
        AlikeOff (Hidden cfg differ id) merged merged') →
      OpAlike (.apply id key ref facts reported merged now)
        (.apply id key ref facts' reported' merged' now)

/-- The answers of two runs: the labels of a slot belong to the cluster that owns it. -/
def AnsAlike : (o o' : RegOp) → RegAns o → RegAns o' → Prop
  | .describe s _, .describe _ _, a, b =>
    Option.Rel (FactsAlike (differ s.identity.clusterID)) a b
  | .spokeLabels ref, .spokeLabels _, a, b => AlikeOff (differ (owner ref)) a b
  | .authoritativeLabels id, .authoritativeLabels _, a, b =>
    a = b ∧ ∀ owned, a = some owned → owned = cfg.owned id
  | .sweep _, .sweep _, _, _ => True
  | _, _, a, b => HEq a b

/-- Two runs of the registry whose spokes differ as `differ` says. -/
def likeness (ι : Type) : Likeness RegAns Env (Int × World ι) where
  op := OpAlike cfg differ owner
  ans := AnsAlike cfg differ owner
  env := EnvAlike differ
  state s s' := s'.1 = s.1 ∧ RegAlike cfg differ s.2.reg s'.2.reg

end

/-! ## The sections -/

section Rel

variable {α β : Type} {R : α → β → Prop} {a : Option α} {b : Option β} (h : Option.Rel R a b)

include h

theorem rel_cases : (a = none ∧ b = none) ∨ ∃ x y, a = some x ∧ b = some y ∧ R x y := by
  cases h with
  | none => exact .inl ⟨rfl, rfl⟩
  | some hxy => exact .inr ⟨_, _, rfl, rfl, hxy⟩

@[elab_as_elim]
theorem rel_elim {P : Option α → Option β → Prop} (hnone : P none none)
    (hsome : ∀ x y, R x y → P (some x) (some y)) : P a b := by
  cases h with
  | none => exact hnone
  | some hxy => exact hsome _ _ hxy

end Rel

variable {cfg : Config} {differ : String → String → Prop} {owner : Ref → String}

/-- The slots of a pool are in the heap, and belong to the cluster. -/
def Lives (r : Reg) : Prop :=
  ∀ id key ref, r.occupant id key = some ref →
    ∃ sl, r.heap[ref]? = some sl ∧ sl.session.identity.clusterID = id

namespace RegAlike

variable {r r' : Reg} (h : RegAlike cfg differ r r') {id : String} {ref : Ref}

include h

theorem occupant (id key : String) : r'.occupant id key = r.occupant id key := by
  unfold Reg.occupant
  refine rel_elim (h.entries id) rfl fun e e' hee => ?_
  rw [Option.bind_some, Option.bind_some, hee.slots]

theorem slotAt (id key : String) :
    Option.Rel (SlotAlike cfg differ) (r.slotAt id key) (r'.slotAt id key) := by
  unfold Reg.slotAt
  rw [h.occupant]
  cases r.occupant id key with
  | none => exact .none
  | some ref => exact h.heap ref

theorem holder (id key : String) (ref : Ref) :
    Option.Rel (fun p p' => EntryAlike cfg differ id p.1 p'.1 ∧ SlotAlike cfg differ p.2 p'.2)
      (r.holder id key ref) (r'.holder id key ref) := by
  unfold Reg.holder
  refine rel_elim (h.entries id) .none fun e e' hee => ?_
  rw [Option.bind_some, Option.bind_some, hee.slots]
  split
  · exact rel_elim (h.heap ref) .none fun sl sl' hss => .some ⟨hee, hss⟩
  · exact .none

theorem entryOf (id : String) : EntryAlike cfg differ id (r.entryOf id) (r'.entryOf id) := by
  unfold Reg.entryOf
  exact rel_elim (h.entries id) ⟨rfl, ClusterAlike.refl _⟩ fun e e' hee => hee

variable {e e' : Entry}

theorem insert (he : EntryAlike cfg differ id e e') :
    RegAlike cfg differ { r with entries := r.entries.insert id e }
      { r' with entries := r'.entries.insert id e' } := by
  refine { h with entries := fun id' => ?_ }
  by_cases hid : id' = id
  · subst hid
    simp only [lookup_insert]
    exact .some he
  · simp only [lookup_insert_of_ne _ hid]
    exact h.entries id'

theorem erase : RegAlike cfg differ { r with entries := r.entries.erase id }
    { r' with entries := r'.entries.erase id } := by
  refine { h with entries := fun id' => ?_ }
  by_cases hid : id' = id
  · subst hid
    simp only [lookup_erase]
    exact .none
  · simp only [lookup_erase_ne hid]
    exact h.entries id'

variable {sl sl' : Slot}

theorem detachLocked (grace : Int) (key : String) (now : Int) (he : EntryAlike cfg differ id e e')
    (hfacts : ClusterAlike (Hidden cfg differ id) sl.facts sl'.facts) :
    RegAlike cfg differ (r.detachLocked grace id e key sl now)
      (r'.detachLocked grace id e' key sl' now) := by
  have hfrozen : ClusterAlike (Hidden cfg differ id) (frozen sl.facts now)
      (frozen sl'.facts now) := by
    refine ⟨?_, hfacts.2⟩
    rw [hfacts.1]
    rfl
  unfold Reg.detachLocked
  simp only [he.slots]
  split
  · split
    · exact h.erase
    · exact h.insert ⟨rfl, hfrozen⟩
  · exact h.insert ⟨rfl, he.lastCluster⟩

theorem install (key : String) (hsl : SlotAlike cfg differ sl sl') :
    RegAlike cfg differ (r.install id key sl) (r'.install id key sl') := by
  have hheap : ∀ ref : Ref, Option.Rel (SlotAlike cfg differ) (r.heap ++ [sl])[ref]?
      (r'.heap ++ [sl'])[ref]? := by
    intro ref
    rw [List.getElem?_append, List.getElem?_append, h.length]
    split
    · exact h.heap ref
    cases ref - r.heap.length with
    | zero => exact .some hsl
    | succ n => exact .none
  have hmore : RegAlike cfg differ { r with heap := r.heap ++ [sl] }
      { r' with heap := r'.heap ++ [sl'] } :=
    ⟨h.closed, h.anonSeq, by simp [h.length], hheap, h.entries⟩
  have hslots : EntryAlike cfg differ id
      { r.entryOf id with slots := (r.entryOf id).slots.insert key r.heap.length }
      { r'.entryOf id with slots := (r'.entryOf id).slots.insert key r'.heap.length } :=
    ⟨by simp only [(h.entryOf id).slots, h.length], (h.entryOf id).lastCluster⟩
  exact hmore.insert hslots

theorem set (hsl : SlotAlike cfg differ sl sl') :
    RegAlike cfg differ { r with heap := r.heap.set ref sl }
      { r' with heap := r'.heap.set ref sl' } := by
  refine { h with length := by simp [h.length], heap := fun ref' => ?_ }
  rw [List.getElem?_set, List.getElem?_set, h.length]
  split_ifs
  · exact .some hsl
  · exact .none
  · exact h.heap ref'

end RegAlike

variable {e : Entry} {key : String} {r : Reg} {sl : Slot}

theorem Lives.detachLocked (hr : Lives r) {grace now : Int} (he : r.entries.lookup id = some e) :
    Lives (r.detachLocked grace id e key sl now) := by
  intro id' key' ref' hocc
  rw [Reg.heap_detachLocked]
  exact hr id' key' ref' (Reg.occupant_of_detachLocked he hocc).2

variable {ref : Ref}

theorem Lives.holder (hr : Lives r) (h : r.holder id key ref = some (e, sl)) :
    r.entries.lookup id = some e ∧ r.heap[ref]? = some sl ∧ sl.session.identity.clusterID = id := by
  obtain ⟨he, hkey, hsl⟩ := Reg.holder_eq_some.mp h
  obtain ⟨sl', hsl', hid⟩ := hr id key ref ((Reg.occupant_of_lookup he).trans hkey)
  rw [hsl] at hsl'
  cases hsl'
  exact ⟨he, hsl, hid⟩

variable {r' : Reg}

theorem closeVictims_alike (grace now : Int) (vs : List Victim) (h : RegAlike cfg differ r r')
    (hr : Lives r) : (Reg.closeVictims grace now vs r').1 = (Reg.closeVictims grace now vs r).1 ∧
      RegAlike cfg differ (Reg.closeVictims grace now vs r).2
        (Reg.closeVictims grace now vs r').2 := by
  induction vs generalizing r r' with
  | nil => exact ⟨rfl, h⟩
  | cons v vs ih =>
    unfold Reg.closeVictims
    rcases rel_cases (h.holder v.id v.key v.slot) with
      ⟨hn, hn'⟩ | ⟨⟨e, sl⟩, ⟨e', sl'⟩, hp, hp', hpp⟩
    · rw [hn, hn']
      exact ih h hr
    obtain ⟨he, _, hid⟩ := hr.holder hp
    have hfacts := hpp.2.facts
    rw [hid] at hfacts
    rw [hp, hp']
    obtain ⟨h1, h2⟩ := ih (h.detachLocked grace v.key now hpp.1 hfacts) (hr.detachLocked he)
    exact ⟨congrArg (v :: ·) h1, h2⟩

variable {sl' : Slot}

theorem SlotAlike.session (h : SlotAlike cfg differ sl sl') : sl'.session = sl.session :=
  (congrArg Slot.session h.same :)

theorem SlotAlike.generation (h : SlotAlike cfg differ sl sl') : sl'.generation = sl.generation :=
  (congrArg Slot.generation h.same :)

theorem attach_alike (h : RegAlike cfg differ r r') (key : String)
    (hsl : SlotAlike cfg differ sl sl') : (r'.attach key sl').1 = (r.attach key sl).1 ∧
      RegAlike cfg differ (r.attach key sl).2 (r'.attach key sl').2 := by
  unfold Reg.attach
  simp only [hsl.session, hsl.generation, h.closed, h.length, h.occupant]
  split
  · exact ⟨rfl, h⟩
  rcases rel_cases (h.slotAt sl.session.identity.clusterID key) with
    ⟨hn, hn'⟩ | ⟨prev, prev', hp, hp', hpp⟩
  · rw [hn, hn']
    exact ⟨rfl, h.install key hsl⟩
  rw [hp, hp']
  simp only [hpp.generation]
  split
  · exact ⟨rfl, h⟩
  · exact ⟨rfl, h.install key hsl⟩

variable {facts facts' : Facts} {merged merged' reported reported' : StrMap String}

theorem SlotAlike.refresh (h : SlotAlike cfg differ sl sl') (now : Int)
    (hfacts : FactsAlike (differ sl.session.identity.clusterID) facts facts')
    (hreported : AlikeOff (differ sl.session.identity.clusterID) reported reported')
    (hmerged : AlikeOff (Hidden cfg differ sl.session.identity.clusterID) merged merged') :
    SlotAlike cfg differ (sl.refresh sl.session.identity.clusterID facts reported merged now)
      (sl'.refresh sl.session.identity.clusterID facts' reported' merged' now) := by
  have hchanged : facts'.changed = facts.changed := (congrArg Facts.changed hfacts.1 :)
  unfold Slot.refresh
  rw [hchanged]
  split
  · refine ⟨?_, ⟨?_, hmerged⟩, hreported⟩
    · rw [h.same, hfacts.1]
    · rw [hfacts.1, h.facts.1]
  · refine ⟨?_, ⟨?_, hmerged⟩, h.spokeLabels⟩
    · rw [h.same]
    · rw [h.facts.1]

theorem apply_alike (h : RegAlike cfg differ r r') (hr : Lives r)
    (hown : ∀ ref sl, r.heap[ref]? = some sl → sl.session.identity.clusterID = owner ref)
    (key : String) (now : Int) (hfacts : FactsAlike (differ id) facts facts')
    (hlabels : owner ref = id → AlikeOff (differ id) reported reported' ∧
      AlikeOff (Hidden cfg differ id) merged merged') :
    RegAlike cfg differ (r.apply id key ref facts reported merged now)
      (r'.apply id key ref facts' reported' merged' now) := by
  unfold Reg.apply
  rcases rel_cases (h.holder id key ref) with ⟨hn, hn'⟩ | ⟨⟨e, sl⟩, ⟨e', sl'⟩, hp, hp', hpp⟩
  · rw [hn, hn']
    exact h
  obtain ⟨_, hsl, hid⟩ := hr.holder hp
  rw [hp, hp']
  subst hid
  obtain ⟨hreported, hmerged⟩ := hlabels (hown ref sl hsl).symm
  exact h.set (hpp.2.refresh now hfacts hreported hmerged)

variable {e' : Entry}

theorem EntryAlike.present (h : EntryAlike cfg differ id e e') (grace now : Int) :
    presentLocked grace e' now = presentLocked grace e now := by
  have hseen : e'.lastCluster.lastSeen = e.lastCluster.lastSeen :=
    (congrArg Cluster.lastSeen h.lastCluster.1 :)
  unfold presentLocked
  rw [h.slots, hseen]

theorem sweep_alike (h : RegAlike cfg differ r r') (grace now : Int) (o o' : Orders) :
    RegAlike cfg differ (r.sweep grace o now).2 (r'.sweep grace o' now).2 := by
  refine { h with entries := fun id => ?_ }
  rw [Reg.lookup_sweep, Reg.lookup_sweep]
  refine rel_elim (h.entries id) .none fun e e' hee => ?_
  simp only [Option.filter, hee.present]
  split
  · exact .some hee
  · exact .none

/-! ## The order of the loops -/

theorem RegAlike.keys (h : RegAlike cfg differ r r') : r.entries.keys = r'.entries.keys := by
  apply Finset.ext
  intro id
  rw [Finmap.mem_keys, Finmap.mem_keys, ← Finmap.lookup_isSome, ← Finmap.lookup_isSome]
  exact rel_elim (h.entries id) Iff.rfl fun _ _ _ => Iff.rfl

/-- The pools that a loop visits are known from the keys that it visits. -/
theorem visited_pools (o : Range String Entry) (m : StrMap Entry) :
    (o.list m).map (fun x => (x.1, x.2.slots)) = ((o.list m).map Sigma.fst).map fun id =>
      (id, ((m.lookup id).map Entry.slots).getD ∅) := by
  rw [map_map]
  apply map_congr_left
  rintro ⟨id, e⟩ hmem
  simp [(Range.mem_list o m).mp hmem]

variable {o o' : Orders}

section Visits

variable (h : RegAlike cfg differ r r') (ho : SameOrder o o')

include h ho

theorem RegAlike.visited :
    (o'.entries.list r'.entries).map (fun x => (x.1, x.2.slots)) =
      (o.entries.list r.entries).map fun x => (x.1, x.2.slots) := by
  rw [visited_pools, visited_pools, ho.1 _ _ h.keys]
  apply map_congr_left
  intro id _
  refine rel_elim (h.entries id) rfl fun e e' hee => ?_
  rw [Option.map_some, Option.map_some, hee.slots]

theorem candidates_alike :
    r'.candidates o' = r.candidates o := by
  have hserial : ∀ ref : Ref, (r'.heap[ref]?).map Slot.certSerial =
      (r.heap[ref]?).map Slot.certSerial := by
    intro ref
    refine rel_elim (h.heap ref) rfl fun sl sl' hss => ?_
    exact congrArg some (congrArg Slot.certSerial hss.same :)
  have hflat : ∀ (r : Reg) (o : Orders), r.candidates o =
      ((o.entries.list r.entries).map fun x => (x.1, x.2.slots)).flatMap fun x =>
        (o.slots.list x.2).filterMap fun y =>
          ((r.heap[y.2]?).map Slot.certSerial).bind fun serial =>
            if serial = "" then none else some ⟨x.1, y.1, y.2, serial⟩ := by
    intro r o
    rw [Reg.candidates, flatMap_map]
    simp only [Option.bind_map]
    rfl
  rw [hflat, hflat, h.visited ho]
  simp only [ho.2, hserial]

theorem close_alike :
    (r'.close o').1 = (r.close o).1 ∧ RegAlike cfg differ (r.close o).2 (r'.close o').2 := by
  have hflat : ∀ (r : Reg) (o : Orders),
      ((o.entries.list r.entries).flatMap fun x => (o.slots.list x.2.slots).map fun y => y.2) =
      ((o.entries.list r.entries).map fun x => (x.1, x.2.slots)).flatMap fun x =>
        (o.slots.list x.2).map fun y => y.2 := by
    intro r o
    rw [flatMap_map]
  unfold Reg.close
  rw [h.closed]
  split
  · exact ⟨rfl, h⟩
  refine ⟨?_, ⟨rfl, h.anonSeq, h.length, h.heap, fun id => ?_⟩⟩
  · dsimp only
    rw [hflat, hflat, h.visited ho]
    simp only [ho.2]
  · simp only [lookup_empty]
    exact .none

/-! ## One step of two runs -/

end Visits

/-- Each slot of the heap belongs to the cluster that `owner` says. -/
def OwnedBy (owner : Ref → String) (r : Reg) : Prop :=
  ∀ ref sl, r.heap[ref]? = some sl → sl.session.identity.clusterID = owner ref

theorem plain_alike (h : RegAlike cfg differ r r') (hr : Lives r) (hown : OwnedBy owner r)
    {e e' : Env} (he : EnvAlike differ e e') {o : RegOp} (ho : plain o = true) :
    AnsAlike cfg differ owner o o (regAct cfg o e r).1 (regAct cfg o e' r').1 ∧
      RegAlike cfg differ (regAct cfg o e r).2 (regAct cfg o e' r').2 := by
  cases o with
  | clock => exact ⟨heq_of_eq he.now.symm, h⟩
  | isClosed => exact ⟨heq_of_eq h.closed.symm, h⟩
  | describe s fp => exact ⟨he.describe s fp, h⟩
  | generation s => exact ⟨heq_of_eq (congrFun he.generation s).symm, h⟩
  | nextAnon =>
    have hseq : r'.anonSeq + 1 = r.anonSeq + 1 := by rw [h.anonSeq]
    exact ⟨heq_of_eq hseq.symm, ⟨h.closed, hseq, h.length, h.heap, h.entries⟩⟩
  | authoritativeLabels id =>
    refine ⟨⟨?_, fun owned howned => ?_⟩, h⟩
    · simp only [regAct, he.labelsFail]
    simp only [regAct] at howned
    split at howned
    · cases howned
    · exact (Option.some.inj howned).symm
  | fingerprint ref =>
    refine ⟨heq_of_eq ?_, h⟩
    simp only [regAct]
    refine rel_elim (h.heap ref) rfl fun sl sl' hss => ?_
    exact (congrArg Slot.fingerprint hss.same :).symm
  | spokeLabels ref =>
    refine ⟨?_, h⟩
    show AlikeOff (differ (owner ref)) (((r.heap[ref]?).map Slot.spokeLabels).getD ∅)
      (((r'.heap[ref]?).map Slot.spokeLabels).getD ∅)
    rcases rel_cases (h.heap ref) with ⟨hn, hn'⟩ | ⟨sl, sl', hsl, hsl', hss⟩
    · rw [hn, hn']
      exact .refl _
    · rw [hsl, hsl', ← hown ref sl hsl]
      exact hss.spokeLabels
  | attach | apply => cases ho
  | release id key ref now =>
    refine ⟨HEq.rfl, ?_⟩
    show RegAlike cfg differ (r.release cfg.grace id key ref now)
      (r'.release cfg.grace id key ref now)
    rw [Reg.release_eq, Reg.release_eq]
    exact (closeVictims_alike cfg.grace now _ h hr).2
  | candidates => exact ⟨heq_of_eq (candidates_alike h he.orders).symm, h⟩
  | isRevoked serial => exact ⟨heq_of_eq (congrFun he.revoked serial).symm, h⟩
  | closeVictims vs now =>
    obtain ⟨h1, h2⟩ := closeVictims_alike cfg.grace now vs h hr
    exact ⟨heq_of_eq h1.symm, h2⟩
  | sweep now => exact ⟨trivial, sweep_alike h cfg.grace now e.orders e'.orders⟩
  | close =>
    obtain ⟨h1, h2⟩ := close_alike h he.orders
    exact ⟨heq_of_eq h1.symm, h2⟩
  | closeSession ref => exact ⟨HEq.rfl, h⟩

theorem regAct_alike (h : RegAlike cfg differ r r') (hr : Lives r) (hown : OwnedBy owner r)
    {e e' : Env} (he : EnvAlike differ e e') {o o' : RegOp} (ho : OpAlike cfg differ owner o o') :
    AnsAlike cfg differ owner o o' (regAct cfg o e r).1 (regAct cfg o' e' r').1 ∧
      RegAlike cfg differ (regAct cfg o e r).2 (regAct cfg o' e' r').2 := by
  cases ho with
  | same hplain => exact plain_alike h hr hown he hplain
  | @attach key sl sl' hsl =>
    obtain ⟨h1, h2⟩ := attach_alike h key hsl
    exact ⟨heq_of_eq h1.symm, h2⟩
  | apply hfacts hlabels => exact ⟨HEq.rfl, apply_alike h hr hown _ _ hfacts hlabels⟩

variable {ι : Type}

theorem act_alike {i : ι} {o o' : RegOp} {e e' : Env} {s s' t : Int × World ι} {a : RegAns o}
    (hs : Sound cfg s.2) (hown : OwnedBy owner s.2.reg)
    (ho : (likeness cfg differ owner ι).op o o') (he : (likeness cfg differ owner ι).env e e')
    (hstate : (likeness cfg differ owner ι).state s s')
    (hact : (regMachine cfg).act i o e s = some (a, t)) :
    ∃ b t', (regMachine cfg).act i o' e' s' = some (b, t') ∧
      (likeness cfg differ owner ι).ans o o' a b ∧ (likeness cfg differ owner ι).state t t' := by
  obtain ⟨hle, hnow, hact'⟩ := clocked_act hact
  obtain ⟨htime, hreg⟩ := hstate
  have hdone : act cfg i o e s.2 = (a, t.2) := Option.some.inj hact'
  have ha : (regAct cfg o e s.2.reg).1 = a := congrArg Prod.fst hdone
  have ht : (regAct cfg o e s.2.reg).2 = t.2.reg := congrArg (fun p => p.2.reg) hdone
  obtain ⟨hans, hnext⟩ := regAct_alike hreg (fun _ _ _ h => hs.live h) hown he ho
  rw [ha] at hans
  rw [ht] at hnext
  have hready : s'.1 ≤ e'.now := by
    rw [htime, he.now, ← hnow]
    exact hle
  refine ⟨_, (e'.now, (act cfg i o' e' s'.2).2), if_pos hready, hans, ?_, hnext⟩
  rw [hnow]
  exact he.now

/-! ## The calls of two runs -/

section Twins

variable {α : Type} {Q : α → α → Prop}

/-- Operations whose answers are the same in the two runs. -/
def strict : RegOp → Bool
  | .describe _ _ => false
  | .spokeLabels _ => false
  | .authoritativeLabels _ => false
  | .sweep _ => false
  | o => plain o

theorem strict_rule {o : RegOp} (ho : strict o = true) {k k' : RegAns o → Call α}
    (hk : ∀ a, Twin (likeness cfg differ owner ι) Q (k a) (k' a)) :
    Twin (likeness cfg differ owner ι) Q (.op o k) (.op o k') := by
  have hplain : plain o = true := by cases o <;> first | rfl | cases ho
  refine ⟨.same hplain, fun a b hab => ?_⟩
  have hsame : a = b := by cases o <;> first | exact eq_of_heq hab | cases ho
  rw [← hsame]
  exact hk a

theorem mergeLabels_twin (id : String) {P : Prop}
    (h : P → AlikeOff (differ id) reported reported') : Twin (likeness cfg differ owner ι)
      (Option.Rel fun m m' => P → AlikeOff (Hidden cfg differ id) m m')
      (mergeLabels cfg id reported) (mergeLabels cfg id reported') := by
  unfold mergeLabels
  cases hcfg : cfg.authoritativeLabels with
  | none =>
    refine .some fun hP => ?_
    have hnone : cfg.owned id = ∅ := by simp [Config.owned, hcfg]
    have hover : AlikeOff (Hidden cfg differ id) _ _ := alikeOff_overlay (h hP)
    simpa [overlay, hnone] using hover
  | some labels =>
    refine ⟨.same rfl, fun a b hab => ?_⟩
    obtain ⟨rfl, howned⟩ := hab
    cases a with
    | none => exact .none
    | some owned =>
      obtain rfl := howned owned rfl
      exact .some fun hP => alikeOff_overlay (h hP)

variable {f f' : Facts}

theorem FactsAlike.reachable (h : FactsAlike hidden f f') :
    f'.cluster.reachable = f.cluster.reachable := (congrArg (fun f => f.cluster.reachable) h.1 :)

theorem clusterFrom_twin (id : String) (ident : Identity) (h : FactsAlike (differ id) f f') :
    Twin (likeness cfg differ owner ι) (Option.Rel (ClusterAlike (Hidden cfg differ id)))
      (clusterFrom cfg id ident f.cluster) (clusterFrom cfg id ident f'.cluster) := by
  refine .bind (mergeLabels_twin (P := True) id fun _ => h.2) fun m m' hm => ?_
  cases hm with
  | none => exact .none
  | some hm =>
    refine strict_rule rfl fun now => ?_
    refine .some ⟨?_, hm trivial⟩
    rw [h.reachable]

theorem slotKey_twin (ident : Identity) :
    Twin (likeness cfg differ owner ι) Eq (slotKey ident) (slotKey ident) := by
  unfold slotKey
  split
  · exact rfl
  split
  · exact rfl
  · exact strict_rule rfl fun n => rfl

theorem onSession_twin (session : Option Session) :
    Twin (likeness cfg differ owner ι) Eq (onSession cfg session) (onSession cfg session) := by
  unfold onSession
  cases session with
  | none => exact rfl
  | some s =>
    dsimp only
    split
    · exact rfl
    simp only [call_bind]
    refine strict_rule rfl fun closed => ?_
    cases closed with
    | true => exact rfl
    | false =>
      refine ⟨.same rfl, fun reply reply' hreply => ?_⟩
      cases hreply with
      | none => exact rfl
      | @some f f' hf =>
        have hgen : f'.generation = f.generation := (congrArg Facts.generation hf.1 :)
        have hfp : f'.fingerprint = f.fingerprint := (congrArg Facts.fingerprint hf.1 :)
        refine strict_rule rfl fun gen => ?_
        refine .bind (slotKey_twin s.identity) fun key key' hkey => ?_
        subst hkey
        refine .bind (clusterFrom_twin s.identity.clusterID s.identity hf) fun c c' hc => ?_
        cases hc with
        | none => exact rfl
        | some hc =>
          -- the two slots are alike, so they meet the same fate
          refine ⟨.attach ⟨?_, hc, hf.2⟩, fun a b hab => ?_⟩
          · simp only [hgen, hfp]
          obtain rfl := eq_of_heq hab
          rcases a with err | ⟨ref, _ | prev⟩
          · exact rfl
          · exact rfl
          · exact strict_rule rfl fun _ => rfl

theorem applyFacts_twin (id key : String) (ref : Ref) (h : FactsAlike (differ id) f f') :
    Twin (likeness cfg differ owner ι) (fun _ _ => True) (applyFacts cfg id key ref f)
      (applyFacts cfg id key ref f') := by
  have hchanged : f'.changed = f.changed := (congrArg Facts.changed h.1 :)
  refine strict_rule rfl fun now => ?_
  have hrest : ∀ reported reported', (owner ref = id → AlikeOff (differ id) reported reported') →
      Twin (likeness cfg differ owner ι) (fun _ _ => True)
        (mergeLabels cfg id reported >>= applyMerged id key ref f reported now)
        (mergeLabels cfg id reported' >>= applyMerged id key ref f' reported' now) := by
    intro reported reported' hrep
    refine .bind (mergeLabels_twin id hrep) fun m m' hm => ?_
    cases hm with
    | none => exact trivial
    | some hm => exact ⟨.apply h fun howner => ⟨hrep howner, hm howner⟩, fun _ _ _ => trivial⟩
  rw [hchanged]
  cases hc : f.changed with
  | true => exact hrest _ _ fun _ => h.2
  | false =>
    refine ⟨.same rfl, fun a b hab => ?_⟩
    refine hrest a b fun howner => ?_
    rw [← howner]
    exact hab

theorem pollFacts_twin (key : String) (ref : Ref) (s : Session) (ticks : Nat) :
    Twin (likeness cfg differ owner ι) (fun _ _ => True)
      (pollFacts cfg s.identity.clusterID key ref s ticks)
      (pollFacts cfg s.identity.clusterID key ref s ticks) := by
  induction ticks with
  | zero => exact trivial
  | succ ticks ih =>
    simp only [pollFacts, call_bind]
    refine strict_rule rfl fun fp => ?_
    refine ⟨.same rfl, fun reply reply' hreply => ?_⟩
    cases hreply with
    | none => exact ih
    | some hf => exact .bind (applyFacts_twin _ key ref hf) fun _ _ _ => ih

theorem closeSessions_twin (refs : List Ref) :
    Twin (likeness cfg differ owner ι) Eq (closeSessions refs) (closeSessions refs) := by
  induction refs with
  | nil => exact rfl
  | cons ref refs ih => exact strict_rule rfl fun _ => ih

variable {isRevoked : String → Call Bool}

variable (h : ∀ serial, Twin (likeness cfg differ owner ι) Eq (isRevoked serial) (isRevoked serial))

include h

theorem judge_twin (cs : List Victim) (verdict : StrMap Bool) :
    Twin (likeness cfg differ owner ι) Eq (judge isRevoked cs verdict)
      (judge isRevoked cs verdict) := by
  induction cs generalizing verdict with
  | nil => exact rfl
  | cons c cs ih =>
    have hrest : ∀ revoked, Twin (likeness cfg differ owner ι) Eq
        (judge isRevoked cs (verdict.insert c.certSerial revoked) >>= fun victims =>
          (return if revoked then c :: victims else victims : Call (List Victim)))
        (judge isRevoked cs (verdict.insert c.certSerial revoked) >>= fun victims =>
          (return if revoked then c :: victims else victims : Call (List Victim))) :=
      fun revoked => Twin.bind (ih _) fun a b hab => by rw [hab]; exact rfl
    unfold judge
    cases verdict.lookup c.certSerial with
    | some revoked => exact hrest revoked
    | none =>
      refine .bind (h c.certSerial) fun a b hab => ?_
      rw [hab]
      exact hrest b

theorem closeRevokedBy_twin : Twin (likeness cfg differ owner ι) Eq (closeRevokedBy isRevoked)
      (closeRevokedBy isRevoked) := by
  simp only [closeRevokedBy, call_bind]
  refine strict_rule rfl fun cs => ?_
  refine .bind (judge_twin h cs ∅) fun victims victims' hvs => ?_
  subst hvs
  simp only [closeVictims, call_bind]
  split
  · exact rfl
  · refine strict_rule rfl fun now => strict_rule rfl fun closures => ?_
    exact .bind (closeSessions_twin _) fun _ _ _ => rfl

omit h

theorem program_twin (q : Request) :
    Twin (likeness cfg differ owner ι) (fun _ _ => True) (q.program cfg) (q.program cfg) := by
  cases q with
  | onSession s => exact .bind (onSession_twin s) fun _ _ _ => trivial
  | pollFacts key ref s ticks =>
    exact .bind (pollFacts_twin key ref s ticks) fun _ _ _ => trivial
  | release id key ref => exact strict_rule rfl fun _ => strict_rule rfl fun _ => trivial
  | closeRevokedBy =>
    exact .bind (closeRevokedBy_twin fun _ => strict_rule rfl fun _ => rfl) fun _ _ _ => trivial
  | closeRevoked serials =>
    refine .bind (Q := Eq) ?_ fun _ _ _ => trivial
    unfold closeRevoked
    split
    · exact rfl
    · exact closeRevokedBy_twin fun _ => rfl
  | sweep => exact strict_rule rfl fun _ => ⟨.same rfl, fun _ _ _ => trivial⟩
  | close =>
    refine strict_rule rfl fun targets => ?_
    exact .bind (closeSessions_twin targets) fun _ _ _ => trivial

end Twins

/-! ## Two runs -/

theorem regAlike_refl_empty : RegAlike cfg differ (empty ι).reg (empty ι).reg where
  closed := rfl
  anonSeq := rfl
  length := rfl
  heap _ := by simp [empty]
  entries _ := by simp [empty]

section Runs

variable [DecidableEq ι] {c d : Conf RegAns ι (Int × World ι) Reply} {ls : List (ι × Env)}

theorem session_kept (hrun : run (regMachine cfg) c ls = some d)
    (hsl : c.shared.2.reg.heap[ref]? = some sl) :
    ∃ sl', d.shared.2.reg.heap[ref]? = some sl' ∧ sl'.session = sl.session := by
  refine run_keeps (I := fun s : Int × World ι =>
    ∃ sl', s.2.reg.heap[ref]? = some sl' ∧ sl'.session = sl.session) ?_ ⟨sl, hsl, rfl⟩
    (meets_true _ _) hrun
  rintro i o e s a t _ ⟨x, hx, hsession⟩ hact
  obtain ⟨_, _, hchange, _⟩ := act_cases hact
  obtain ⟨y, hy, hkept, _⟩ := hchange.slot_kept hx
  exact ⟨y, hy, hkept.trans hsession⟩

/-- The cluster of each slot of a state. -/
def ownerIn (r : Reg) (ref : Ref) : String :=
  ((r.heap[ref]?).map fun sl => sl.session.identity.clusterID).getD ""

theorem ownedBy_of_run (hrun : run (regMachine cfg) c ls = some d) :
    OwnedBy (ownerIn d.shared.2.reg) c.shared.2.reg := by
  intro ref sl hsl
  obtain ⟨sl', hsl', hsession⟩ := session_kept hrun hsl
  simp [ownerIn, hsl', hsession]

/-- Two runs whose spokes differ as `differ` says end in states that are alike. -/
theorem runs_alike {t₀ : Int} {calls : ι → Request} {ls' : List (ι × Env)}
    {d' : Conf RegAns ι (Int × World ι) Reply}
    (hls : List.Forall₂ (fun l l' => l.1 = l'.1 ∧ EnvAlike differ l.2 l'.2) ls ls')
    (hrun : run (regMachine cfg) (system cfg t₀ calls) ls = some d)
    (hrun' : run (regMachine cfg) (system cfg t₀ calls) ls' = some d') :
    RegAlike cfg differ d.shared.2.reg d'.shared.2.reg := by
  have hstart : (likeness cfg differ (ownerIn d.shared.2.reg) ι).state
      (system cfg t₀ calls).shared (system cfg t₀ calls).shared := ⟨rfl, regAlike_refl_empty⟩
  refine (run_twin (I := fun s => Sound cfg s.2 ∧ OwnedBy (ownerIn d.shared.2.reg) s.2.reg)
    (fun _ _ _ _ _ _ _ _ _ hs _ ho he hst hact => act_alike hs.1 hs.2 ho he hst hact)
    hstart (fun j => program_twin (calls j)) (fun ls₁ ls₂ x _ h₁ h₂ => ?_) hls hrun hrun').2
  exact ⟨(run_sound h₁).1, ownedBy_of_run h₂⟩

end Runs

/-! ## The views of two runs -/

def MergeAlike (hidden : String → Prop) (m m' : Merge) : Prop :=
  Option.Rel (ClusterAlike hidden) m.freshest m'.freshest ∧
    m' = { m with freshest := m'.freshest }

variable {m m' : Merge}

theorem MergeAlike.add (h : MergeAlike hidden m m') {c c' : Cluster} (hc : ClusterAlike hidden c c')
    : MergeAlike hidden (m.add c) (m'.add c') := by
  have hseen : c'.lastSeen = c.lastSeen := (congrArg Cluster.lastSeen hc.1 :)
  have hsince : c'.connectedSince = c.connectedSince := (congrArg Cluster.connectedSince hc.1 :)
  have hreach : c'.reachable = c.reachable := (congrArg Cluster.reachable hc.1 :)
  constructor
  · unfold Merge.add
    refine rel_elim h.1 (.some hc) fun f f' hff => ?_
    have hfseen : f'.lastSeen = f.lastSeen := (congrArg Cluster.lastSeen hff.1 :)
    simp only [hseen, hfseen]
    split
    · exact .some hc
    · exact .some hff
  · rw [h.2]
    simp only [Merge.add, hseen, hsince, hreach]

theorem foldl_alike {l l' : List Cluster} (h : List.Forall₂ (ClusterAlike hidden) l l')
    (hm : MergeAlike hidden m m') :
    MergeAlike hidden (l.foldl Merge.add m) (l'.foldl Merge.add m') := by
  induction h generalizing m m' with
  | nil => exact hm
  | cons hc _ ih => exact ih (hm.add hc)

theorem pool_alike (h : RegAlike cfg differ r r') (hr : Lives r) (he : r.entries.lookup id = some e)
    (hee : EntryAlike cfg differ id e e') (ho : SameOrder o o') :
    List.Forall₂ (ClusterAlike (Hidden cfg differ id)) (r.pool o e) (r'.pool o' e') := by
  have hmem : ∀ x ∈ o.slots.list e.slots, e.slots.lookup x.1 = some x.2 := by
    rintro ⟨key, ref⟩ hx
    exact (Range.mem_list _ _).mp hx
  unfold Reg.pool
  rw [hee.slots, ← ho.2]
  generalize o.slots.list e.slots = l at hmem
  induction l with
  | nil => exact .nil
  | cons x l ih =>
    have hkey := hmem x mem_cons_self
    obtain ⟨sl, hsl, hid⟩ := hr id x.1 x.2 ((Reg.occupant_of_lookup he).trans hkey)
    rcases rel_cases (h.heap x.2) with ⟨hn, _⟩ | ⟨y, y', hy, hy', hyy⟩
    · rw [hsl] at hn
      cases hn
    rw [hsl] at hy
    cases hy
    have hfacts := hyy.facts
    rw [hid] at hfacts
    rw [filterMap_cons, filterMap_cons, hsl, hy']
    exact .cons hfacts (ih fun z hz => hmem z (mem_cons_of_mem x hz))

theorem merged_alike (h : RegAlike cfg differ r r') (hr : Lives r)
    (he : r.entries.lookup id = some e) (hee : EntryAlike cfg differ id e e') (ho : SameOrder o o')
    : ClusterAlike (Hidden cfg differ id) (r.mergedLocked o id e) (r'.mergedLocked o' id e') := by
  unfold Reg.mergedLocked
  rw [hee.slots]
  split
  · exact hee.lastCluster
  have hstart : MergeAlike (Hidden cfg differ id) ⟨none, 0, 0, false⟩ ⟨none, 0, 0, false⟩ :=
    ⟨.none, rfl⟩
  have hfold := foldl_alike (pool_alike h hr he hee ho) hstart
  dsimp only
  generalize (r.pool o e).foldl Merge.add ⟨none, 0, 0, false⟩ = m at hfold
  generalize (r'.pool o' e').foldl Merge.add ⟨none, 0, 0, false⟩ = m' at hfold
  rcases rel_cases hfold.1 with ⟨hn, hn'⟩ | ⟨f, f', hf, hf', hff⟩
  · rw [hn, hn']
    exact hee.lastCluster
  · rw [hf, hf', hfold.2]
    refine ⟨?_, hff.2⟩
    rw [hff.1]

theorem allowsCluster_alike {scope : Scope} {labels labels' : StrMap String}
    (h : AlikeOff hidden labels labels') (hscope : ∀ k ∈ scope.clusters.matchLabels, ¬hidden k) :
    scope.allowsCluster id labels' = scope.allowsCluster id labels := by
  have hlabel : ∀ k ∈ scope.clusters.matchLabels.keys, labelOf labels' k = labelOf labels k := by
    intro k hk
    unfold labelOf
    rw [h k (hscope k (mem_keys.mp hk))]
  have hall : (∀ k ∈ scope.clusters.matchLabels.keys,
        labelOf labels' k = labelOf scope.clusters.matchLabels k) ↔
      ∀ k ∈ scope.clusters.matchLabels.keys,
        labelOf labels k = labelOf scope.clusters.matchLabels k :=
    forall₂_congr fun k hk => by rw [hlabel k hk]
  unfold Scope.allowsCluster
  simp only [hall]

/-! ## A spoke cannot relabel itself -/

/-- Every view of a cluster has the id of its certificate and the labels of the operator.
And if the spokes of two runs differ in the ids they report, and in labels that a scope
does not match or that the operator has set, then the scope sees the same clusters. -/
theorem a_spoke_cannot_relabel_itself {ι : Type} [DecidableEq ι] (cfg : Config) (t₀ : Int)
    (calls : ι → Request) :
    (∀ ls c, run (regMachine cfg) (system cfg t₀ calls) ls = some c → ∀ orders now,
      (∀ id x, c.shared.2.reg.cluster cfg.grace orders now id = some x →
        x.id = id ∧ ∀ k v, (cfg.owned id).lookup k = some v → x.labels.lookup k = some v) ∧
      (∀ x ∈ c.shared.2.reg.list cfg.grace orders now,
        c.shared.2.reg.cluster cfg.grace orders now x.id = some x) ∧
      (∀ p, ∀ x ∈ c.shared.2.reg.visible cfg.grace orders now p,
        c.shared.2.reg.cluster cfg.grace orders now x.id = some x) ∧
      ∀ id key sl, c.shared.2.reg.slotAt id key = some sl → sl.session.identity.clusterID = id) ∧
    ∀ (differ : String → String → Prop) ls ls' c c',
      List.Forall₂ (fun l l' => l.1 = l'.1 ∧ EnvAlike differ l.2 l'.2) ls ls' →
      run (regMachine cfg) (system cfg t₀ calls) ls = some c →
      run (regMachine cfg) (system cfg t₀ calls) ls' = some c' →
      ∀ orders orders' now p scope, SameOrder orders orders' → p.scope = some scope →
        (∀ id, ∀ k ∈ scope.clusters.matchLabels, differ id k → k ∈ cfg.owned id) →
        ∀ id, id ∈ (c.shared.2.reg.visible cfg.grace orders now (some p)).map Cluster.id ↔
          id ∈ (c'.shared.2.reg.visible cfg.grace orders' now (some p)).map Cluster.id := by
  constructor
  · intro ls c hrun orders now
    obtain ⟨hsound, _⟩ := run_sound hrun
    refine ⟨fun id x hx => ?_, fun x hx => ?_, fun p x hx => ?_, fun id key sl hsl => ?_⟩
    · obtain ⟨e, he, _, rfl⟩ := cluster_eq_some.mp hx
      exact hsound.merged_branded he orders
    · exact (hsound.cluster_of_filter hx).1
    · unfold Reg.visible at hx
      split at hx
      · cases hx
      · exact (hsound.cluster_of_filter hx).1
    · obtain ⟨ref, hocc, href⟩ := Option.bind_eq_some_iff.mp hsl
      obtain ⟨sl', hsl', hid⟩ := hsound.live hocc
      rw [href] at hsl'
      cases hsl'
      exact hid
  · intro differ ls ls' c c' hls hrun hrun' orders orders' now p scope horders hp hscope id
    obtain ⟨hsound, _⟩ := run_sound hrun
    obtain ⟨hsound', _⟩ := run_sound hrun'
    have halike := runs_alike hls hrun hrun'
    rw [hsound.mem_visible hp, hsound'.mem_visible hp]
    rcases rel_cases (halike.entries id) with ⟨hn, hn'⟩ | ⟨e, e', he, he', hee⟩
    · simp [hn, hn']
    have hmerged := merged_alike halike (fun _ _ _ h => hsound.live h) he hee horders
    have hallows : scope.allowsCluster id _ = scope.allowsCluster id _ :=
      allowsCluster_alike hmerged.2 fun k hk hhidden => hhidden.2 (hscope id k hk hhidden.1)
    simp only [he, he', Option.some.injEq, exists_eq_left', hee.present, hallows]

/-! ## A spoke that claims to be production -/

/-- The operator has said that the cluster is for tests. -/
def testLabels : Config :=
  { bareConfig with authoritativeLabels := some fun _ => Finmap.singleton "env" "test" }

/-- A spoke that reports an id and a label of its own choice. -/
def claiming (id env : String) : Env :=
  { now := 5
    describe := fun _ _ => some ⟨"fp", true,
      { Cluster.zero with id := id, labels := Finmap.singleton "env" env, reachable := true }, 1⟩
    generation := fun _ => 0
    labelsFail := false
    revoked := fun _ => false
    orders := ⟨ascending, ascending⟩ }

theorem claiming_alike (id env id' env' : String) :
    EnvAlike (fun c k => k ∈ testLabels.owned c) (claiming id env) (claiming id' env') where
  now := rfl
  describe s fp := by
    refine .some ⟨rfl, fun k hk => ?_⟩
    have hne : k ≠ "env" := fun h => hk ((mem_singleton k "env" "test").mpr h)
    have hnone : ∀ v : String, (Finmap.singleton "env" v : StrMap String).lookup k = none :=
      fun v => lookup_eq_none.mpr fun h => hne ((mem_singleton k "env" v).mp h)
    exact (hnone env).trans (hnone env').symm
  generation := rfl
  labelsFail := rfl
  revoked := rfl
  orders := ⟨fun _ _ h => ascending_of_keys h, fun _ => rfl⟩

/-- A credential for the production clusters. -/
def production : Principal :=
  { kid := "k", name := "n", cls := .agent, role := .viewer, epoch := 0
    scope := some
      { role := .viewer
        clusters := ⟨[], Finmap.singleton "env" "prod", []⟩
        tools := ⟨[], []⟩
        limits := ⟨0, 0, 0, 0, 0, 0, 0, 0⟩ } }

def spoke : Session := ⟨⟨"east", "01", 100, "pod"⟩⟩

/-- A spoke that says it is in production, and one that says it is not: the operator has
the last word, and neither is seen. -/
theorem a_spoke_cannot_relabel_itself_as_production :
    ∃ c c', run (regMachine testLabels) (system testLabels 0 fun _ : Fin 1 =>
        .onSession (some spoke)) (List.replicate 6 (0, claiming "east" "test")) = some c ∧
      run (regMachine testLabels) (system testLabels 0 fun _ : Fin 1 =>
        .onSession (some spoke)) (List.replicate 6 (0, claiming "west" "prod")) = some c' ∧
      (c'.shared.2.reg.list 10 ⟨ascending, ascending⟩ 5).map Cluster.id = ["east"] ∧
      "east" ∉ (c.shared.2.reg.visible 10 ⟨ascending, ascending⟩ 5 (some production)).map
        Cluster.id ∧
      "east" ∉ (c'.shared.2.reg.visible 10 ⟨ascending, ascending⟩ 5 (some production)).map
        Cluster.id := by
  have halike : ∀ n, List.Forall₂ (fun l l' : Fin 1 × Env => l.1 = l'.1 ∧
      EnvAlike (fun c k => k ∈ testLabels.owned c) l.2 l'.2)
      (List.replicate n (0, claiming "east" "test"))
      (List.replicate n (0, claiming "west" "prod")) := by
    intro n
    induction n with
    | zero => exact .nil
    | succ n ih => exact .cons ⟨rfl, claiming_alike _ _ _ _⟩ ih
  have hsame := (a_spoke_cannot_relabel_itself testLabels 0 fun _ : Fin 1 =>
    Request.onSession (some spoke)).2 _ _ _ _ _ (halike 6) rfl rfl ⟨ascending, ascending⟩
    ⟨ascending, ascending⟩ 5 production _ (claiming_alike "" "" "" "").orders rfl
    (fun _ _ _ h => h) "east"
  have hnot : "east" ∉ _ := hsame.not.mp (by decide +kernel)
  exact ⟨_, _, rfl, rfl, by decide +kernel, by decide +kernel, hnot⟩

end prom_fleet.registry
