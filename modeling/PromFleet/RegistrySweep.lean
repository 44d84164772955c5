-- The revocation sweep over every interleaving: a pass takes a snapshot, asks for each
-- serial once, and tears down the victims that still hold their slots when it has the
-- write lock.
import PromFleet.RegistryLaws

namespace prom_fleet.registry

open interleave List Finmap map_range fleet

variable {ι α : Type} {cfg : Config} {env : Env} {r r' : Reg} {o : RegOp} {a : RegAns o}

/-! ## Where a slot can be -/

structure Placed (r : Reg) : Prop where
  admitted : ∀ {id key : String} {ref : Ref}, r.occupant id key = some ref → ref < r.heap.length
  once : ∀ {id key id' key' : String} {ref : Ref}, r.occupant id key = some ref →
    r.occupant id' key' = some ref → id = id' ∧ key = key'

theorem Change.length_le (h : Change cfg env r o a r') : r.heap.length ≤ r'.heap.length := by
  cases h with
  | quiet hheap _ _ _ => exact le_of_eq (congrArg List.length hheap.symm)
  | install _ _ => simp [Reg.install]
  | refresh | release | closeVictims => simp
  | sweep => exact le_refl _
  | close _ => exact le_refl _

theorem Placed.step (hp : Placed r) (h : Change cfg env r o a r') : Placed r' where
  admitted := by
    intro id key ref hocc
    rcases h.occupant_inv hocc with hold | ⟨sl, _, _, href, hheap, _⟩
    · exact (hp.admitted hold).trans_le h.length_le
    · rw [hheap, href]
      simp
  once := by
    intro id key id' key' ref hocc hocc'
    rcases h.occupant_inv hocc with hold | ⟨sl, ho, hid, href, _, _⟩
    · rcases h.occupant_inv hocc' with hold' | ⟨_, _, _, href', _, _⟩
      · exact hp.once hold hold'
      · exact absurd href' (Nat.ne_of_lt (hp.admitted hold))
    · rcases h.occupant_inv hocc' with hold' | ⟨sl', ho', hid', _, _, _⟩
      · exact absurd href (Nat.ne_of_lt (hp.admitted hold'))
      · rw [ho] at ho'
        cases ho'
        exact ⟨hid.symm.trans hid', rfl⟩

/-- The slot was admitted with this serial, and `P` holds of the keys that it occupies. -/
structure Confined (ref : Ref) (serial : String) (P : String → String → Prop) (r : Reg) :
    Prop where
  admitted : ∃ sl, r.heap[ref]? = some sl ∧ sl.certSerial = serial
  within : ∀ id key, r.occupant id key = some ref → P id key

variable {P : String → String → Prop}

/-- A slot moves to no other key, and keeps its serial. -/
theorem Confined.step {ref : Ref} {serial : String}
    (hc : Confined ref serial P r) (h : Change cfg env r o a r') : Confined ref serial P r' where
  admitted := by
    obtain ⟨sl, hsl, hserial⟩ := hc.admitted
    obtain ⟨sl', hsl', _, _, hsame⟩ := h.slot_kept hsl
    exact ⟨sl', hsl', hsame.trans hserial⟩
  within := by
    intro id key hocc
    rcases h.occupant_inv hocc with hold | ⟨_, _, _, href, _, _⟩
    · exact hc.within id key hold
    · obtain ⟨sl, hsl, _⟩ := hc.admitted
      exact absurd href (Nat.ne_of_lt (List.getElem?_eq_some_iff.mp hsl).1)

/-! ## The snapshot and the teardown -/

theorem mem_candidates {orders : Orders} {v : Victim} : v ∈ r.candidates orders ↔
      r.occupant v.id v.key = some v.slot ∧
        ∃ sl, r.heap[v.slot]? = some sl ∧ sl.certSerial = v.certSerial ∧ v.certSerial ≠ "" := by
  unfold Reg.candidates
  simp only [mem_flatMap, mem_filterMap]
  constructor
  · rintro ⟨⟨id, e⟩, he, ⟨key, ref⟩, hkey, hv⟩
    obtain ⟨sl, hsl, hif⟩ := Option.bind_eq_some_iff.mp hv
    split at hif
    · cases hif
    rename_i hserial
    cases hif
    have hentry := (Range.mem_list _ _).mp he
    refine ⟨?_, sl, hsl, rfl, hserial⟩
    exact (Reg.occupant_of_lookup hentry).trans ((Range.mem_list _ _).mp hkey)
  · rintro ⟨hocc, sl, hsl, hserial, hne⟩
    obtain ⟨e, he, hkey⟩ := Reg.exists_entry hocc
    refine ⟨⟨v.id, e⟩, (Range.mem_list _ _).mpr he, ⟨v.key, v.slot⟩,
      (Range.mem_list _ _).mpr hkey, ?_⟩
    simp [hsl, hserial, hne]

section Teardown

variable {grace now : Int} {v : Victim} {vs : List Victim}

theorem occupant_kept_or_none (grace now : Int) (vs : List Victim) (r : Reg) (id key : String) :
    (Reg.closeVictims grace now vs r).2.occupant id key = r.occupant id key ∨
      (Reg.closeVictims grace now vs r).2.occupant id key = none := by
  rcases @Reg.occupant_closeVictims grace now vs r id key with h | ⟨h, _⟩
  · exact .inl h
  · exact .inr h

theorem closeVictims_gone (hv : v ∈ vs) (hlt : v.slot < r.heap.length) :
    (Reg.closeVictims grace now vs r).2.occupant v.id v.key ≠ some v.slot := by
  induction vs generalizing r with
  | nil => cases hv
  | cons w vs ih =>
    unfold Reg.closeVictims
    cases hh : r.holder w.id w.key w.slot with
    | none =>
      rcases mem_cons.mp hv with rfl | hv
      · have hnot : r.occupant v.id v.key ≠ some v.slot := by
          intro hocc
          obtain ⟨e, he, hkey⟩ := Reg.exists_entry hocc
          have hsome := Reg.holder_eq_some.mpr ⟨he, hkey, List.getElem?_eq_getElem hlt⟩
          rw [hh] at hsome
          cases hsome
        rcases occupant_kept_or_none grace now vs r v.id v.key with h | h
        · exact fun hocc => hnot (h.symm.trans hocc)
        · exact fun hocc => by rw [h] at hocc; cases hocc
      · exact ih hv hlt
    | some p =>
      obtain ⟨e, sl⟩ := p
      rcases mem_cons.mp hv with rfl | hv
      · intro hocc
        rcases occupant_kept_or_none grace now vs
          (r.detachLocked grace v.id e v.key sl now) v.id v.key with h | h
        · rw [h, Reg.occupant_detachLocked_self] at hocc
          cases hocc
        · rw [h] at hocc
          cases hocc
      · exact ih hv (by rw [Reg.heap_detachLocked]; exact hlt)

/-- A victim that is torn down held its slot, and its key is empty after it. -/
theorem mem_closures (hv : v ∈ (Reg.closeVictims grace now vs r).1) :
    r.occupant v.id v.key = some v.slot ∧
      (Reg.closeVictims grace now vs r).2.occupant v.id v.key = none := by
  induction vs generalizing r with
  | nil => cases hv
  | cons w vs ih =>
    unfold Reg.closeVictims at hv ⊢
    cases hh : r.holder w.id w.key w.slot with
    | none =>
      rw [hh] at hv
      exact ih hv
    | some p =>
      obtain ⟨e, sl⟩ := p
      rw [hh] at hv
      dsimp only at hv ⊢
      obtain ⟨he, hkey, _⟩ := Reg.holder_eq_some.mp hh
      have hempty : (r.detachLocked grace w.id e w.key sl now).occupant w.id w.key = none :=
        Reg.occupant_detachLocked_self
      rcases mem_cons.mp hv with rfl | hv
      · refine ⟨(Reg.occupant_of_lookup he).trans hkey, ?_⟩
        rcases occupant_kept_or_none grace now vs
          (r.detachLocked grace v.id e v.key sl now) v.id v.key with h | h
        · exact h.trans hempty
        · exact h
      · obtain ⟨hocc, hnone⟩ := ih hv
        exact ⟨(Reg.occupant_of_detachLocked he hocc).2, hnone⟩

theorem nodup_closures (hp : Placed r) :
    ((Reg.closeVictims grace now vs r).1.map fun v => v.slot).Nodup := by
  induction vs generalizing r with
  | nil => exact nodup_nil
  | cons w vs ih =>
    unfold Reg.closeVictims
    cases hh : r.holder w.id w.key w.slot with
    | none => exact ih hp
    | some p =>
      obtain ⟨e, sl⟩ := p
      obtain ⟨he, hkey, hsl⟩ := Reg.holder_eq_some.mp hh
      have hocc : r.occupant w.id w.key = some w.slot := (Reg.occupant_of_lookup he).trans hkey
      have hback : ∀ id key ref,
          (r.detachLocked grace w.id e w.key sl now).occupant id key = some ref →
          r.occupant id key = some ref ∧ ref ≠ w.slot := by
        intro id key ref h
        obtain ⟨hk, h⟩ := Reg.occupant_of_detachLocked he h
        refine ⟨h, fun href => hk ?_⟩
        subst href
        exact hp.once h hocc
      have hp' : Placed (r.detachLocked grace w.id e w.key sl now) :=
        ⟨fun h => by rw [Reg.heap_detachLocked]; exact hp.admitted (hback _ _ _ h).1,
          fun h h' => hp.once (hback _ _ _ h).1 (hback _ _ _ h').1⟩
      rw [map_cons, nodup_cons]
      refine ⟨fun hmem => ?_, ih hp'⟩
      obtain ⟨v, hv, hslot⟩ := mem_map.mp hmem
      exact (hback _ _ _ (mem_closures hv).1).2 hslot

end Teardown

/-! ## The operations of a pass -/

variable (ev : Event RegAns Env (Int × World ι))

/-- The event asks for a verdict and leaves the pools alone. -/
def Quiet : Prop :=
  ev.after.2.reg.entries = ev.before.2.reg.entries ∧ ∃ serial, ev.op = .isRevoked serial

theorem act_reg {i : ι} {s t : Int × World ι} (h : (regMachine cfg).act i o env s = some (a, t)) :
    a = (regAct cfg o env s.2.reg).1 ∧ t.2.reg = (regAct cfg o env s.2.reg).2 := by
  obtain ⟨_, _, hact⟩ := clocked_act h
  obtain ⟨ha, ht⟩ := Prod.mk.injEq .. ▸ Option.some.inj hact
  exact ⟨ha.symm, by rw [← ht]⟩

def RegOp.asks : RegOp → Option String
  | .isRevoked serial => some serial
  | _ => none

def asked : Option String := ev.op.asks

/-- A judge that says of each serial what `V` says, as long as its operations meet `E`, and
that leaves the registry alone. -/
def Judges (cfg : Config) (i : ι) (E : Event RegAns Env (Int × World ι) → Prop)
    (V : String → Bool) (isRevoked : String → Call Bool) : Prop :=
  ∀ serial s evs b t, (∀ ev ∈ evs, E ev) →
    Path (regMachine cfg) i (isRevoked serial) s evs (.done b) t →
    b = V serial ∧ ∀ ev ∈ evs, Quiet ev

variable {i : ι} {E : Event RegAns Env (Int × World ι) → Prop} {V : String → Bool}
  {s t : Int × World ι} {evs : List (Event RegAns Env (Int × World ι))} {cs vs : List Victim}
  {isRevoked : String → Call Bool} {verdict : StrMap Bool}

theorem judge_path (hr : Judges cfg i E V isRevoked)
    (hverdict : ∀ serial b, verdict.lookup serial = some b → b = V serial) (hE : ∀ ev ∈ evs, E ev)
    (h : Path (regMachine cfg) i (judge isRevoked cs verdict) s evs (.done vs) t) :
    vs = cs.filter (fun v => V v.certSerial) ∧ ∀ ev ∈ evs, Quiet ev := by
  induction cs generalizing s t evs vs verdict with
  | nil =>
    obtain ⟨rfl, hvs, _⟩ := h.of_done
    cases hvs
    exact ⟨rfl, fun _ hev => by cases hev⟩
  | cons c cs ih =>
    have hinsert : ∀ serial b, (verdict.insert c.certSerial (V c.certSerial)).lookup serial =
        some b → b = V serial := by
      intro serial b hb
      obtain ⟨rfl, rfl⟩ | ⟨_, hold⟩ := lookup_insert_cases hb
      · rfl
      · exact hverdict serial b hold
    -- the rest of the loop, once the verdict on `c` is known
    have hrest : ∀ s' evs', (∀ ev ∈ evs', E ev) →
        Path (regMachine cfg) i
          (judge isRevoked cs (verdict.insert c.certSerial (V c.certSerial)) >>= fun victims =>
            Prog.done (if V c.certSerial then c :: victims else victims)) s' evs' (.done vs) t →
        vs = (c :: cs).filter (fun v => V v.certSerial) ∧ ∀ ev ∈ evs', Quiet ev := by
      intro s' evs' hE' h'
      obtain ⟨victims, u, hx, hpath, _⟩ := Path.of_map h'
      obtain ⟨rfl, hquiet⟩ := ih hinsert hE' hpath
      refine ⟨?_, hquiet⟩
      rw [hx, filter_cons]
    unfold judge at h
    cases hl : verdict.lookup c.certSerial with
    | some b =>
      obtain rfl := hverdict _ _ hl
      rw [hl] at h
      exact hrest s evs hE h
    | none =>
      rw [hl] at h
      obtain ⟨b, u, evs₁, evs₂, rfl, h₁, h₂⟩ := Path.of_bind h
      obtain ⟨rfl, hquiet₁⟩ := hr _ _ _ _ _ (fun ev hev => hE ev (mem_append_left _ hev)) h₁
      obtain ⟨hvs, hquiet₂⟩ := hrest u evs₂ (fun ev hev => hE ev (mem_append_right _ hev)) h₂
      refine ⟨hvs, fun ev hev => ?_⟩
      rcases mem_append.mp hev with hev | hev
      · exact hquiet₁ ev hev
      · exact hquiet₂ ev hev

theorem judges_call (cfg : Config) (i : ι) (V : String → Bool) :
    Judges cfg i (fun ev => ev.env.revoked = V) V
      fun serial => Prog.call (RegOp.isRevoked serial) := by
  intro serial s evs b t hV h
  obtain ⟨e, x, u, u', evs', _, hact, rfl, hrest⟩ := Path.of_op h
  obtain ⟨rfl, hx, _⟩ := hrest.of_done
  cases hx
  obtain ⟨hans, hreg⟩ := act_reg hact
  refine ⟨?_, fun ev hev => ?_⟩
  · rw [hans, ← hV _ mem_cons_self]
    rfl
  · obtain rfl := mem_singleton.mp hev
    exact ⟨congrArg Reg.entries hreg, serial, rfl⟩

theorem judges_pure (cfg : Config) (i : ι) (V : String → Bool) :
    Judges cfg i (fun _ => True) V fun serial => Prog.done (V serial) := by
  intro serial s evs b t _ h
  obtain ⟨rfl, hx, _⟩ := h.of_done
  cases hx
  exact ⟨rfl, fun _ hev => by cases hev⟩

/-- The loop asks for a serial only once, and not for one that has a verdict. -/
theorem judge_asks_once
    (h : Path (regMachine cfg) i (judge (fun serial => Prog.call (RegOp.isRevoked serial)) cs
      verdict) s evs (.done vs) t) :
    (evs.filterMap asked).Nodup ∧ ∀ serial ∈ evs.filterMap asked, serial ∉ verdict := by
  induction cs generalizing s t evs vs verdict with
  | nil =>
    obtain ⟨rfl, _, _⟩ := h.of_done
    exact ⟨nodup_nil, fun _ hs => by cases hs⟩
  | cons c cs ih =>
    unfold judge at h
    cases hl : verdict.lookup c.certSerial with
    | some b =>
      rw [hl] at h
      obtain ⟨victims, u, _, hpath, _⟩ := Path.of_map h
      obtain ⟨hnodup, hfresh⟩ := ih hpath
      exact ⟨hnodup, fun serial hs hin => hfresh serial hs (mem_insert.mpr (.inr hin))⟩
    | none =>
      rw [hl] at h
      obtain ⟨e, b, u, u', evs', _, _, rfl, hrest⟩ := Path.of_op h
      obtain ⟨victims, w, _, hpath, _⟩ := Path.of_map hrest
      obtain ⟨hnodup, hfresh⟩ := ih hpath
      have hcons : ∀ ev : Event RegAns Env (Int × World ι), ev.op = .isRevoked c.certSerial →
          (ev :: evs').filterMap asked = c.certSerial :: evs'.filterMap asked := by
        intro ev hev
        simp [asked, hev, RegOp.asks]
      refine ⟨nodup_cons.mpr ⟨fun hin => ?_, hnodup⟩, fun serial hs hin => ?_⟩
      · exact hfresh _ hin (mem_insert.mpr (.inl rfl))
      rcases mem_cons.mp hs with rfl | hs
      · exact lookup_eq_none.mp hl hin
      · exact hfresh serial hs (mem_insert.mpr (.inr hin))

theorem closeSessions_path {refs : List Ref} {x : Unit}
    (h : Path (regMachine cfg) i (closeSessions refs) s evs (.done x) t) :
    evs.map (fun ev => ev.op) = refs.map RegOp.closeSession ∧
      ∀ ev ∈ evs, ev.after.2.reg = ev.before.2.reg := by
  induction refs generalizing s evs with
  | nil =>
    obtain ⟨rfl, _, _⟩ := h.of_done
    exact ⟨rfl, fun _ hev => by cases hev⟩
  | cons ref refs ih =>
    obtain ⟨e, b, u, u', evs', _, hact, rfl, hrest⟩ := Path.of_op h
    obtain ⟨hops, hsame⟩ := ih hrest
    refine ⟨by simp [hops], fun ev hev => ?_⟩
    rcases mem_cons.mp hev with rfl | hev
    · exact (act_reg hact).2
    · exact hsame ev hev

/-! ## A pass -/

/-- The event took the slot out of this key. -/
def Detaches (id key : String) (ref : Ref) : Prop :=
  ev.before.2.reg.occupant id key = some ref ∧ ev.after.2.reg.occupant id key ≠ some ref

theorem not_detaches {ev : Event RegAns Env (Int × World ι)}
    (h : ev.after.2.reg.entries = ev.before.2.reg.entries) (id key : String) (ref : Ref) :
    ¬Detaches ev id key ref :=
  fun hd => hd.2 ((Reg.occupant_congr h).trans hd.1)

/-- The teardown of the victims: a reading of the clock, the section under the write lock,
and the closing of the sessions that it has detached. -/
structure Teardown (cfg : Config) (victims : List Victim) (ids : List String)
    (read lock : Event RegAns Env (Int × World ι))
    (closing : List (Event RegAns Env (Int × World ι))) (now : Int) (closures : List Victim) :
    Prop where
  read_op : read.op = .clock
  read_quiet : read.after.2.reg = read.before.2.reg
  lock_op : lock.op = .closeVictims victims now
  detached : closures = (Reg.closeVictims cfg.grace now victims lock.before.2.reg).1
  after : lock.after.2.reg = (Reg.closeVictims cfg.grace now victims lock.before.2.reg).2
  closed : closing.map (fun ev => ev.op) = closures.map (fun v => RegOp.closeSession v.slot)
  closed_quiet : ∀ ev ∈ closing, ev.after.2.reg = ev.before.2.reg
  returned : ids = (closures.map fun v => v.id).insertionSort fun a b => a ≤ b

/-- What a pass has done when it ends: the snapshot, the verdicts, and the teardown of the
victims, which it leaves out if there are none. -/
structure Pass (cfg : Config) (V : String → Bool) (snap : Event RegAns Env (Int × World ι))
    (judged tail : List (Event RegAns Env (Int × World ι))) (victims : List Victim)
    (ids : List String) : Prop where
  snapshot : snap.op = .candidates
  unchanged : snap.after.2.reg = snap.before.2.reg
  quiet : ∀ ev ∈ judged, Quiet ev
  chosen : ∀ v, v ∈ victims ↔
    v ∈ snap.before.2.reg.candidates snap.env.orders ∧ V v.certSerial = true
  teardown : (tail = [] ∧ victims = [] ∧ ids = []) ∨
    ∃ read lock closing now closures, tail = read :: lock :: closing ∧
      Teardown cfg victims ids read lock closing now closures

variable {ids : List String}

theorem closeVictims_path {victims : List Victim}
    (h : Path (regMachine cfg) i (closeVictims victims) s evs (.done ids) t) :
    (evs = [] ∧ victims = [] ∧ ids = []) ∨
    ∃ read lock closing now closures, evs = read :: lock :: closing ∧
      Teardown cfg victims ids read lock closing now closures := by
  unfold closeVictims at h
  by_cases hnone : victims = []
  · rw [if_pos hnone] at h
    obtain ⟨rfl, hids, _⟩ := h.of_done
    cases hids
    exact .inl ⟨rfl, hnone, rfl⟩
  · rw [if_neg hnone] at h
    obtain ⟨e₁, now, u₁, u₂, evs₁, _, hread, rfl, h₁⟩ := Path.of_op h
    obtain ⟨e₂, closures, u₃, u₄, evs₂, _, hlock, rfl, h₂⟩ := Path.of_op h₁
    obtain ⟨x, u₅, hids, h₃, _⟩ := Path.of_map h₂
    obtain ⟨hops, hsame⟩ := closeSessions_path h₃
    obtain ⟨hclosures, hreg⟩ := act_reg hlock
    refine .inr ⟨_, _, evs₂, now, closures, rfl, rfl, (act_reg hread).2, rfl, hclosures, hreg, ?_,
      hsame, hids⟩
    rw [hops, map_map]
    rfl

theorem closeRevokedBy_path (hr : Judges cfg i E V isRevoked) (hE : ∀ ev ∈ evs, E ev)
    (h : Path (regMachine cfg) i (closeRevokedBy isRevoked) s evs (.done ids) t) :
    ∃ snap judged tail victims u, evs = snap :: (judged ++ tail) ∧
      Pass cfg V snap judged tail victims ids ∧
      Path (regMachine cfg) i (judge isRevoked (snap.before.2.reg.candidates snap.env.orders) ∅)
        snap.after judged (.done victims) u := by
  obtain ⟨e, cs, u₁, u₂, evs', _, hact, rfl, hrest⟩ := Path.of_op h
  obtain ⟨hcs, hreg⟩ := act_reg hact
  change Path _ i (judge isRevoked cs ∅ >>= closeVictims) u₂ evs' _ t at hrest
  obtain ⟨victims, u, judged, tail, rfl, hjudge, hclose⟩ := Path.of_bind hrest
  have hE' : ∀ ev ∈ judged, E ev := by
    intro ev hev
    exact hE ev (mem_cons_of_mem _ (mem_append_left _ hev))
  rw [hcs] at hjudge
  obtain ⟨hvictims, hquiet⟩ := judge_path hr (by simp) hE' hjudge
  refine ⟨_, judged, tail, victims, u, rfl, ⟨rfl, hreg, hquiet, fun v => ?_, ?_⟩, hjudge⟩
  · rw [hvictims, mem_filter]
    rfl
  · exact closeVictims_path hclose

section

variable {snap : Event RegAns Env (Int × World ι)}
  {judged tail : List (Event RegAns Env (Int × World ι))} {victims : List Victim}
  {ids : List String} {α : Type} {p q : Prog RegAns α}

theorem placed_kept (j : ι) (o : RegOp) (e : Env) (a : RegAns o) (s t : Int × World ι)
    (h : (regMachine cfg).act j o e s = some (a, t)) (hs : Placed s.2.reg) : Placed t.2.reg :=
  hs.step (act_cases h).2.2.1

variable {ref : Ref}

theorem confined_kept {serial : String} (j : ι) (o : RegOp) (e : Env)
    (a : RegAns o) (s t : Int × World ι) (h : (regMachine cfg).act j o e s = some (a, t))
    (hs : Confined ref serial P s.2.reg) : Confined ref serial P t.2.reg :=
  hs.step (act_cases h).2.2.1

variable {v : Victim}

variable (hpass : Pass cfg V snap judged tail victims ids)

include hpass

/-- A victim was in its pool at the snapshot, with its serial, and goes to no other key. -/
theorem Pass.confined (hplaced : Placed snap.before.2.reg) (hv : v ∈ victims) :
    Confined v.slot v.certSerial (fun id key => id = v.id ∧ key = v.key) snap.after.2.reg := by
  obtain ⟨hocc, sl, hsl, hserial, _⟩ := mem_candidates.mp ((hpass.chosen v).mp hv).1
  rw [hpass.unchanged]
  exact ⟨⟨sl, hsl, hserial⟩, fun id key h => hplaced.once h hocc⟩

variable {id key : String}

theorem Pass.victim {sl : Slot} (hocc : snap.before.2.reg.occupant id key = some ref)
    (hsl : snap.before.2.reg.heap[ref]? = some sl) (hne : sl.certSerial ≠ "")
    (hV : V sl.certSerial = true) : (⟨id, key, ref, sl.certSerial⟩ : Victim) ∈ victims :=
  (hpass.chosen _).mpr ⟨mem_candidates.mpr ⟨hocc, sl, hsl, rfl, hne⟩, hV⟩

/-- A victim is in no pool when the pass has ended. -/
theorem Pass.gone (hpath : Path (regMachine cfg) i p s (snap :: (judged ++ tail)) q t)
    (hplaced : Placed snap.before.2.reg) (hv : v ∈ victims) :
    Confined v.slot v.certSerial (fun _ _ => False) t.2.reg := by
  have hconf := hpass.confined hplaced hv
  rcases hpass.teardown with ⟨_, hnone, _⟩ | ⟨read, lock, closing, now, closures, htail, htear⟩
  · rw [hnone] at hv
    cases hv
  -- at the write lock the slot can only be where the snapshot has seen it
  have hall := (hpath.keeps_after confined_kept [] hconf).2
  have hlock : lock ∈ judged ++ tail := by simp [htail]
  obtain ⟨hbefore, hend⟩ := hall lock hlock
  obtain ⟨sl, hsl, _⟩ := hbefore.admitted
  have hgone : Confined v.slot v.certSerial (fun _ _ => False) lock.after.2.reg := by
    refine ⟨hend.admitted, fun id key hocc => ?_⟩
    obtain ⟨rfl, rfl⟩ := hend.within id key hocc
    rw [htear.after] at hocc
    exact closeVictims_gone hv (List.getElem?_eq_some_iff.mp hsl).1 hocc
  rw [htail, show snap :: (judged ++ read :: lock :: closing) =
    (snap :: judged ++ [read]) ++ lock :: closing by simp] at hpath
  exact (hpath.keeps_after confined_kept _ hgone).1

variable {ev : Event RegAns Env (Int × World ι)}

theorem Pass.tail_cases (hev : ev ∈ tail) : (ev.after.2.reg = ev.before.2.reg ∧
      (ev.op = .clock ∨ ∃ v ∈ victims, ev.op = .closeSession v.slot)) ∨
    ∃ read closing now closures, tail = read :: ev :: closing ∧
      Teardown cfg victims ids read ev closing now closures := by
  rcases hpass.teardown with ⟨hnil, _⟩ | ⟨read, lock, closing, now, closures, htail, htear⟩
  · rw [hnil] at hev
    cases hev
  rw [htail] at hev
  rcases mem_cons.mp hev with rfl | hev
  · exact .inl ⟨htear.read_quiet, .inl htear.read_op⟩
  rcases mem_cons.mp hev with rfl | hev
  · exact .inr ⟨read, closing, now, closures, htail, htear⟩
  have hin : ev.op ∈ closures.map fun v => RegOp.closeSession v.slot := by
    rw [← htear.closed]
    exact mem_map.mpr ⟨ev, hev, rfl⟩
  obtain ⟨v, hv, hop⟩ := mem_map.mp hin
  rw [htear.detached] at hv
  exact .inl ⟨htear.closed_quiet ev hev, .inr ⟨v, Reg.closeVictims_subset _ _ hv, hop.symm⟩⟩

/-- The events of a pass: under the write lock, or without a change of the pools. -/
theorem Pass.event_cases
    (hev : ev ∈ snap :: (judged ++ tail)) : (ev.after.2.reg.entries = ev.before.2.reg.entries ∧
      (ev.op = .candidates ∨ (∃ serial, ev.op = .isRevoked serial) ∨ ev.op = .clock ∨
        ev ∈ tail ∧ ∃ v ∈ victims, ev.op = .closeSession v.slot)) ∨
    ∃ read closing now closures, tail = read :: ev :: closing ∧
      Teardown cfg victims ids read ev closing now closures := by
  rcases mem_cons.mp hev with rfl | hev
  · exact .inl ⟨congrArg Reg.entries hpass.unchanged, .inl hpass.snapshot⟩
  rcases mem_append.mp hev with hev | hev
  · obtain ⟨hsame, hasks⟩ := hpass.quiet ev hev
    exact .inl ⟨hsame, .inr (.inl hasks)⟩
  rcases hpass.tail_cases hev with ⟨hsame, hop⟩ | hlock
  · exact .inl ⟨congrArg Reg.entries hsame, .inr (.inr (hop.imp_right fun hop => ⟨hev, hop⟩))⟩
  · exact .inr hlock

/-- Only the section under the write lock takes slots out of their keys. -/
theorem Pass.detaches (hev : ev ∈ snap :: (judged ++ tail)) (hd : Detaches ev id key ref) :
    ∃ read closing now closures, tail = read :: ev :: closing ∧
      Teardown cfg victims ids read ev closing now closures := by
  rcases hpass.event_cases hev with ⟨hsame, _⟩ | hlock
  · exact absurd hd (not_detaches hsame id key ref)
  · exact hlock

variable {lock : Event RegAns Env (Int × World ι)} {now : Int}

omit hpass in
theorem Teardown.mem_closures {read : Event RegAns Env (Int × World ι)}
    {closing : List (Event RegAns Env (Int × World ι))} {closures : List Victim}
    (htear : Teardown cfg victims ids read lock closing now closures)
    (hd : Detaches lock id key ref) : ∃ v ∈ closures, v.id = id ∧ v.slot = ref := by
  obtain ⟨hbefore, hafter⟩ := hd
  rw [htear.after] at hafter
  rcases @Reg.occupant_closeVictims cfg.grace now victims lock.before.2.reg id key with
    hsame | ⟨_, v, hv, hid, _, hslot⟩
  · exact absurd (hsame.trans hbefore) hafter
  rw [hbefore] at hslot
  rw [htear.detached]
  exact ⟨v, hv, hid, (Option.some.inj hslot).symm⟩

theorem Pass.touches (hev : ev ∈ snap :: (judged ++ tail))
    (htouch : ev.op = .closeSession ref ∨ ∃ id key, Detaches ev id key ref) :
    ev ∈ judged ++ tail ∧ ∃ v ∈ victims, v.slot = ref := by
  rcases htouch with hclose | ⟨id, key, hd⟩
  · rcases hpass.event_cases hev with ⟨_, hop⟩ | ⟨_, _, _, _, _, htear⟩
    · rw [hclose] at hop
      rcases hop with hop | ⟨serial, hasks⟩ | hop | ⟨htail, v, hv, hop⟩
      · cases hop
      · cases hasks
      · cases hop
      · cases hop
        exact ⟨mem_append_right _ htail, v, hv, rfl⟩
    · rw [htear.lock_op] at hclose
      cases hclose
  · obtain ⟨read, closing, now, closures, htail, htear⟩ := hpass.detaches hev hd
    obtain ⟨v, hv, _, hslot⟩ := htear.mem_closures hd
    rw [htear.detached] at hv
    refine ⟨by simp [htail], v, Reg.closeVictims_subset _ _ hv, hslot⟩

/-- The list that the pass returns has one cluster for each slot that it has detached. -/
theorem Pass.returned (hplaced : ∀ ev ∈ snap :: (judged ++ tail), Placed ev.before.2.reg) :
    ids.Pairwise (fun a b => a ≤ b) ∧ ∃ detached : List (String × Ref),
      (detached.map Prod.snd).Nodup ∧ ids.Perm (detached.map Prod.fst) ∧
      ∀ id ref, (id, ref) ∈ detached ↔
        ∃ ev ∈ snap :: (judged ++ tail), ∃ key, Detaches ev id key ref := by
  rcases hpass.teardown with ⟨_, hnone, rfl⟩ | ⟨read, lock, closing, now, closures, htail, htear⟩
  · refine ⟨List.Pairwise.nil, [], nodup_nil, List.Perm.refl _, fun id ref => ?_⟩
    constructor
    · intro h
      cases h
    rintro ⟨ev, hev, key, hd⟩
    obtain ⟨_, v, hv, _⟩ := hpass.touches hev (.inr ⟨id, key, hd⟩)
    rw [hnone] at hv
    cases hv
  · have hmem : lock ∈ snap :: (judged ++ tail) := by simp [htail]
    rw [htear.returned]
    refine ⟨pairwise_insertionSort _ _, closures.map fun v => (v.id, v.slot), ?_, ?_,
      fun id ref => ?_⟩
    · rw [map_map, htear.detached]
      exact nodup_closures (hplaced lock hmem)
    · rw [map_map]
      exact perm_insertionSort _ _
    constructor
    · intro hin
      obtain ⟨v, hv, hpair⟩ := mem_map.mp hin
      cases hpair
      rw [htear.detached] at hv
      obtain ⟨hocc, hnone⟩ := mem_closures hv
      refine ⟨lock, hmem, v.key, hocc, ?_⟩
      rw [htear.after, hnone]
      exact fun h => by cases h
    · rintro ⟨ev, hev, key, hd⟩
      obtain ⟨read', closing', now', closures', htail', htear'⟩ := hpass.detaches hev hd
      obtain rfl : ev = lock := by
        rw [htail] at htail'
        exact (List.cons.inj (List.cons.inj htail').2).1.symm
      obtain ⟨v, hv, rfl, rfl⟩ := htear.mem_closures hd
      exact mem_map.mpr ⟨v, hv, rfl⟩

theorem Pass.asked : (snap :: (judged ++ tail)).filterMap asked = judged.filterMap asked := by
  have hsnap : registry.asked snap = none := by simp [registry.asked, hpass.snapshot, RegOp.asks]
  have htail : tail.filterMap registry.asked = [] := by
    rw [filterMap_eq_nil_iff]
    intro ev hev
    rcases hpass.tail_cases hev with ⟨_, hop | ⟨v, _, hop⟩⟩ | ⟨_, _, _, _, _, htear⟩
    · simp [registry.asked, hop, RegOp.asks]
    · simp [registry.asked, hop, RegOp.asks]
    · simp [registry.asked, htear.lock_op, RegOp.asks]
  rw [filterMap_cons, hsnap, filterMap_append, htail, append_nil]

theorem Pass.closes (hlock : lock ∈ snap :: (judged ++ tail))
    (hop : lock.op = .closeVictims vs now) (hv : v ∈ victims)
    (hocc : lock.before.2.reg.occupant v.id v.key = some v.slot)
    (hlt : v.slot < lock.before.2.reg.heap.length) :
    ∃ ev ∈ snap :: (judged ++ tail), ev.op = .closeSession v.slot := by
  have hgone : ∀ r', r' = (Reg.closeVictims cfg.grace now victims lock.before.2.reg).2 →
      r'.occupant v.id v.key ≠ some v.slot := by
    rintro _ rfl
    exact closeVictims_gone hv hlt
  rcases hpass.event_cases hlock with ⟨_, hkind⟩ | ⟨read, closing, now', closures, htail, htear⟩
  · rw [hop] at hkind
    rcases hkind with hkind | ⟨serial, hasks⟩ | hkind | ⟨_, w, _, hkind⟩
    · cases hkind
    · cases hasks
    · cases hkind
    · cases hkind
  · rw [htear.lock_op] at hop
    cases hop
    obtain ⟨w, hw, _, hslot⟩ := htear.mem_closures ⟨hocc, hgone _ htear.after⟩
    have hin : RegOp.closeSession v.slot ∈ closing.map fun ev => ev.op := by
      rw [htear.closed, ← hslot]
      exact mem_map.mpr ⟨w, hw, rfl⟩
    obtain ⟨ev, hev, heq⟩ := mem_map.mp hin
    exact ⟨ev, by simp [htail, hev], heq⟩

end

/-! ## The law -/

theorem placed_empty (ι : Type) : Placed (empty ι).reg where
  admitted h := by simp [empty, Reg.occupant] at h
  once h := by simp [empty, Reg.occupant] at h

/-- The operations of call `i` in a run of the registry. -/
def operations [DecidableEq ι] (cfg : Config) (t₀ : Int) (calls : ι → Request)
    (ls : List (ι × Env)) (i : ι) : List (Event RegAns Env (Int × World ι)) :=
  history (regMachine cfg) i (system cfg t₀ calls) ls

/-- A pass that judges by the set `V`, in any interleaving, when it has ended. -/
theorem a_revocation_sweep_is_exact [DecidableEq ι] (cfg : Config) (t₀ : Int)
    (calls : ι → Request) (ls : List (ι × Env)) (c : Conf RegAns ι (Int × World ι) Reply)
    (hrun : run (regMachine cfg) (system cfg t₀ calls) ls = some c) (i : ι)
    (hcall : calls i = .closeRevokedBy) (V : String → Bool)
    (hV : ∀ l ∈ ls, l.1 = i → l.2.revoked = V) (ids : List String)
    (hdone : c.thread i = .done (.closed ids)) :
    -- a revoked session of the snapshot is in no pool any more, and if it still held its
    -- slot at the write lock, the pass has closed it
    (∃ snap ∈ operations cfg t₀ calls ls i, snap.op = .candidates ∧
      ∀ id key ref sl, snap.before.2.reg.occupant id key = some ref →
        snap.before.2.reg.heap[ref]? = some sl → sl.certSerial ≠ "" →
        V sl.certSerial = true →
        (∀ id' key', c.shared.2.reg.occupant id' key' ≠ some ref) ∧
        ∀ lock ∈ operations cfg t₀ calls ls i, ∀ vs now, lock.op = .closeVictims vs now →
          lock.before.2.reg.occupant id key = some ref →
          ∃ ev ∈ operations cfg t₀ calls ls i, ev.op = .closeSession ref) ∧
    -- what it detaches or closes has a serial, and the serial is revoked
    (∀ ev ∈ operations cfg t₀ calls ls i, ∀ ref sl, ev.before.2.reg.heap[ref]? = some sl →
      (ev.op = .closeSession ref ∨ ∃ id key, Detaches ev id key ref) →
      sl.certSerial ≠ "" ∧ V sl.certSerial = true) ∧
    -- it asks for each serial at most once
    ((operations cfg t₀ calls ls i).filterMap asked).Nodup ∧
    -- it returns one cluster for each slot that it has detached, in order
    ids.Pairwise (fun a b => a ≤ b) ∧ ∃ detached : List (String × Ref),
      (detached.map Prod.snd).Nodup ∧ ids.Perm (detached.map Prod.fst) ∧
      ∀ id ref, (id, ref) ∈ detached ↔
        ∃ ev ∈ operations cfg t₀ calls ls i, ∃ key, Detaches ev id key ref := by
  have hpath := path_of_run (i := i) hrun
  have henv : ∀ ev ∈ operations cfg t₀ calls ls i, ev.env.revoked = V :=
    fun ev hev => hV _ (history_env hev) rfl
  have hplaced : ∀ ev ∈ operations cfg t₀ calls ls i, Placed ev.before.2.reg :=
    fun ev hev => ((hpath.keeps placed_kept (placed_empty ι)).2 ev hev).1
  have hthread : (system cfg t₀ calls).thread i = Request.program cfg .closeRevokedBy :=
    congrArg (Request.program cfg) hcall
  unfold operations at henv hplaced ⊢
  rw [hthread, hdone] at hpath
  obtain ⟨ids', u, hids, hpass', _⟩ := Path.of_map hpath
  cases hids
  obtain ⟨snap, judged, tail, victims, w, hevs, hpass, hjudge⟩ :=
    closeRevokedBy_path (judges_call cfg i V) henv hpass'
  rw [hevs] at hpath henv hplaced ⊢
  refine ⟨⟨snap, mem_cons_self, hpass.snapshot, ?_⟩, ?_, ?_, hpass.returned hplaced⟩
  · intro id key ref sl hocc hsl hne hrevoked
    have hv := hpass.victim hocc hsl hne hrevoked
    have hgone := hpass.gone hpath (hplaced snap mem_cons_self) hv
    refine ⟨fun id' key' => hgone.within id' key', fun lock hlock vs now hop hheld => ?_⟩
    exact hpass.closes hlock hop hv hheld ((hplaced lock hlock).admitted hheld)
  · intro ev hev ref sl hsl htouch
    obtain ⟨hlater, v, hv, rfl⟩ := hpass.touches hev htouch
    have hconf := hpass.confined (hplaced snap mem_cons_self) hv
    obtain ⟨x, hx, hserial⟩ := ((hpath.keeps_after confined_kept [] hconf).2 ev hlater).1.admitted
    rw [hsl] at hx
    cases hx
    obtain ⟨hcand, hrevoked⟩ := (hpass.chosen v).mp hv
    obtain ⟨_, _, _, _, hne⟩ := mem_candidates.mp hcand
    rw [hserial]
    exact ⟨hne, hrevoked⟩
  · rw [hpass.asked]
    exact (judge_asks_once hjudge).1

/-- A sweep for a list of serials leaves no session of its snapshot that has one of them. -/
theorem closeRevoked_gone [DecidableEq ι] {t₀ : Int} {calls : ι → Request} {ls : List (ι × Env)}
    {c : Conf RegAns ι (Int × World ι) Reply}
    (hrun : run (regMachine cfg) (system cfg t₀ calls) ls = some c) {serials : List String}
    (hcall : calls i = .closeRevoked serials) (hne : serials ≠ [])
    (hdone : c.thread i = .done (.closed ids)) :
    ∃ snap ∈ operations cfg t₀ calls ls i, snap.op = .candidates ∧
      ∀ id key ref sl, snap.before.2.reg.occupant id key = some ref →
        snap.before.2.reg.heap[ref]? = some sl → sl.certSerial ≠ "" → sl.certSerial ∈ serials →
        ∀ id' key', c.shared.2.reg.occupant id' key' ≠ some ref := by
  have hpath := path_of_run (i := i) hrun
  have hplaced : ∀ ev ∈ operations cfg t₀ calls ls i, Placed ev.before.2.reg :=
    fun ev hev => ((hpath.keeps placed_kept (placed_empty ι)).2 ev hev).1
  have hthread : (system cfg t₀ calls).thread i = Request.program cfg (.closeRevoked serials) :=
    congrArg (Request.program cfg) hcall
  unfold operations at hplaced ⊢
  rw [hthread, hdone] at hpath
  obtain ⟨ids', u, _, hpass', _⟩ := Path.of_map hpath
  unfold closeRevoked at hpass'
  rw [if_neg hne] at hpass'
  obtain ⟨snap, judged, tail, victims, w, hevs, hpass, _⟩ :=
    closeRevokedBy_path (judges_pure cfg i fun serial => decide (serial ∈ serials))
      (fun _ _ => trivial) hpass'
  rw [hevs] at hpath hplaced ⊢
  refine ⟨snap, mem_cons_self, hpass.snapshot, ?_⟩
  intro id key ref sl hocc hsl hserial hin id' key'
  have hv := hpass.victim hocc hsl hserial (decide_eq_true hin)
  exact (hpass.gone hpath (hplaced snap mem_cons_self) hv).within id' key'

/-! ## A slot that is taken over -/

def podWith (serial pod : String) : Session := ⟨⟨"east", serial, 100, pod⟩⟩

/-- Three pods connect, a pass begins, and the first pod comes back with a new certificate. -/
def takeover : Fin 5 → Request
  | 0 => .onSession (some (podWith "01" "one"))
  | 1 => .onSession (some (podWith "01" "two"))
  | 2 => .onSession (some (podWith "02" "three"))
  | 3 => .closeRevokedBy
  | 4 => .onSession (some (podWith "03" "one"))

def leakedSerial (serial : String) : Bool := decide (serial = "01")

/-- Steps of the calls with these numbers. All the spokes answer, and `leakedSerial` judges. -/
def judging (is : List Nat) : List (Fin 5 × Env) :=
  (numbered is).map fun i =>
    (i, { now := 5
          describe := fun _ _ => some ⟨"fp", true, { Cluster.zero with reachable := true }, 1⟩
          generation := fun _ => 1
          labelsFail := false
          revoked := leakedSerial
          orders := ⟨ascending, ascending⟩ })

/-- The first pod comes back between the snapshot of the pass and its verdicts. -/
def takeoverRun : List (Fin 5 × Env) :=
  judging [0, 0, 0, 0, 0, 1, 1, 1, 1, 1, 2, 2, 2, 2, 2, 3, 4, 4, 4, 4, 4, 4, 3, 3, 3, 3, 3]

/-- The pass detaches the one session that still has the serial, and the pod that came back
keeps its slot. -/
theorem a_revocation_sweep_spares_the_pod_that_came_back :
    ∃ c, run (regMachine bareConfig) (system bareConfig 0 takeover) takeoverRun = some c ∧
      c.thread 3 = .done (.closed ["east"]) ∧
      c.shared.2.reg.occupant "east" "instance:one" = some 3 ∧
      ((operations bareConfig 0 takeover takeoverRun 3).filterMap asked).Nodup ∧
      ∃ detached : List (String × Ref), detached.length = 1 ∧
        ∀ id ref, (id, ref) ∈ detached ↔
          ∃ ev ∈ operations bareConfig 0 takeover takeoverRun 3, ∃ key, Detaches ev id key ref := by
  have henv : ∀ l ∈ takeoverRun, l.1 = 3 → l.2.revoked = leakedSerial := by
    intro l hl _
    obtain ⟨i, _, rfl⟩ := mem_map.mp hl
    rfl
  obtain ⟨_, _, honce, _, detached, _, hperm, hall⟩ :=
    a_revocation_sweep_is_exact bareConfig 0 takeover takeoverRun _ rfl 3 rfl
      leakedSerial henv ["east"] rfl
  refine ⟨_, rfl, rfl, rfl, honce, detached, ?_, hall⟩
  rw [← length_map, ← hperm.length_eq]
  rfl

end prom_fleet.registry
