-- A revocation reaches every session of a replica in bounded time. The stamp of a refresh is
-- at most one refresh after the mutex was taken, so a later stamp tells that the refresh has
-- read the epoch of the commit, and its list. A handshake that was let in has begun before
-- such a stamp was due, and a later pass of the enforcer finds its session.
import PromFleet.Enforcer
import PromFleet.RevocationLaws

namespace prom_fleet.enforcer

open interleave store map_range hub List Option revocation registry

variable {ι : Type}

/-! ## What the record says after one more operation -/

section Record

variable {s : String} {n : Int} {log log' : Record ι} {x : ι × Event Ans Env World} {c : Commit}

theorem committed_kept (h : committed s n log = some c) (hlog : log <+: log') :
    committed s n log' = some c := by
  obtain ⟨rest, rfl⟩ := hlog
  obtain ⟨y, hy, rfl⟩ := map_eq_some_iff.mp h
  unfold committed
  rw [List.find?_append, hy]
  rfl

theorem committed_append : committed s n (log ++ [x]) = (committed s n log).or
      (if commits s n x.2.op x.2.ans then some ⟨x.2.after.1, (docOf x.2.after).epoch⟩
        else none) := by
  unfold committed
  rw [List.find?_append, List.find?_singleton]
  cases log.find? fun x => commits s n x.2.op x.2.ans with
  | some y => rfl
  | none => split <;> rfl

theorem committed_new (h : committed s n (log ++ [x]) = some c) : committed s n log = some c ∨
      committed s n log = none ∧ commits s n x.2.op x.2.ans = true ∧
        c = ⟨x.2.after.1, (docOf x.2.after).epoch⟩ := by
  rw [committed_append] at h
  cases hlog : committed s n log with
  | some d =>
    rw [hlog] at h
    exact .inl h
  | none =>
    rw [hlog, none_or] at h
    split at h
    · rename_i hc
      exact .inr ⟨rfl, hc, (Option.some.inj h).symm⟩
    · cases h

theorem committed_quiet (h : commits s n x.2.op x.2.ans = false) :
    committed s n (log ++ [x]) = committed s n log := by
  rw [committed_append, h]
  exact or_none

theorem holder_append : holder (log ++ [x]) = holderAfter (holder log) x := by
  simp [holder]

theorem own_grows [DecidableEq ι] (i : ι) (h : log <+: log') : own i log <+: own i log' := by
  obtain ⟨rest, rfl⟩ := h
  exact ⟨own i rest, by simp [own]⟩

variable {i : ι}

theorem begun_kept [DecidableEq ι] {t : Int} (h : begun i log = some t) (hlog : log <+: log') :
    begun i log' = some t := by
  obtain ⟨rest, hrest⟩ := own_grows i hlog
  obtain ⟨ev, hev, rfl⟩ := map_eq_some_iff.mp h
  unfold begun
  rw [← hrest]
  cases hown : own i log with
  | nil =>
    rw [hown] at hev
    cases hev
  | cons a as =>
    rw [hown] at hev
    cases hev
    rfl

theorem begun_first [DecidableEq ι] {ev : Event Ans Env World} (h : own i log = []) :
    begun i (log ++ [(i, ev)]) = some ev.after.1 := by
  unfold begun
  rw [own_append_self, h]
  rfl

end Record

/-! ## One step of the machine -/

section Step

variable {R : Replica} {i : ι} {e : Env} {w w' : World}

theorem act_store {o : HubOp} {a : HubAns o}
    (h : (machine R).act i (.inl (.inl o)) e w = some (a, w')) :
    hubAct o e.store w.2.1.1 = some (a, w'.2.1.1) ∧ w'.2.1.2 = w.2.1.2 ∧ regOf w' = regOf w := by
  obtain ⟨_, _, hact⟩ := clocked_act h
  obtain ⟨hleft, hreg⟩ := sum_inl hact
  obtain ⟨hhub, hcache⟩ := sum_inl hleft
  exact ⟨hhub, hcache, hreg⟩

theorem act_cache {o : CacheOp Unit} {a : CacheAns o}
    (h : (machine R).act i (.inl (.inr o)) e w = some (a, w')) :
    cacheAct Env.now o e w.2.1.2 = some (a, w'.2.1.2) ∧ w'.2.1.1 = w.2.1.1 ∧
      regOf w' = regOf w := by
  obtain ⟨_, _, hact⟩ := clocked_act h
  obtain ⟨hleft, hreg⟩ := sum_inl hact
  obtain ⟨hcache, hhub⟩ := sum_inr hleft
  exact ⟨hcache, hhub, hreg⟩

theorem act_pool {o : RegOp} {a : RegAns o} (h : (machine R).act i (.inr o) e w = some (a, w')) :
    Change R.registry e.registry (regOf w) o a (regOf w') ∧ w'.2.1 = w.2.1 := by
  obtain ⟨_, _, hact⟩ := clocked_act h
  obtain ⟨hreg, hleft⟩ := sum_inr hact
  have hpair : regAct R.registry o e.registry (regOf w) = (a, regOf w') := Option.some.inj hreg
  have hchange := regAct_change R.registry o e.registry (regOf w)
  rw [hpair] at hchange
  exact ⟨hchange, hleft⟩

theorem act_clock {o : Op} {a : Ans o} (h : (machine R).act i o e w = some (a, w')) :
    w.1 ≤ w'.1 ∧ w'.1 = e.now := by
  obtain ⟨hle, hnow, _⟩ := clocked_act h
  exact ⟨hle, hnow⟩

end Step

/-! ## The document -/

section Document

variable {s : String} {n : Int} {o : HubOp} {e : revocation.Env} {h h' : Hub} {a : HubAns o}

-- without the wrap of the `uint64`
theorem epoch_le_after (s : State) (ev : store.Event) : s.epoch ≤ (after s ev).epoch :=
  epoch_le_runEvents s [ev]

theorem hubAct_epoch (ha : hubAct o e h = some (a, h')) : h.doc.epoch ≤ h'.doc.epoch := by
  rcases revocation.hubAct_cases ha with rfl | ⟨_, rfl⟩ | ⟨rc, b, _, hb, rfl⟩ |
    ⟨_, _, b, hb, rfl⟩ | ⟨op, _, rfl⟩
  · exact le_refl _
  · exact le_refl _
  · rw [(revokeCert_cases hb).2.2]
    exact Nat.le_succ _
  · exact le_of_eq (prune_cases hb).2.1.symm
  · exact epoch_le_after _ _

/-- An entry that lasts until `n` stays recorded until then, if no later one for its serial
ends sooner. -/
theorem hubAct_recorded (ha : hubAct o e h = some (a, h')) (hrec : Recorded s n h.doc)
    (hnow : e.now ≤ n) (hlast : ∀ rc, o = .revokeCert rc → rc.serial = s → certLive n rc = true) :
    Recorded s n h'.doc := by
  rcases revocation.hubAct_cases ha with rfl | ⟨_, rfl⟩ | ⟨rc, b, ho, hb, rfl⟩ |
    ⟨_, retain, b, hb, rfl⟩ | ⟨op, hop, rfl⟩
  · exact hrec
  · exact hrec
  · rw [(revokeCert_cases hb).2.2]
    exact recorded_setCert e.now (fun hserial => hlast rc ho hserial.symm) fun _ => hrec
  · rcases recorded_prune hb hrec with hkept | hlate
    · exact hkept
    · have hretain := (prune_cases hb).1
      omega
  · exact hrec.congr (by rw [revokedCerts_after hop])

theorem hubAct_commit {rc : RevokedCert}
    (ha : hubAct (.revokeCert rc) e h = some (true, h')) (hlive : certLive n rc = true) :
    rc.serial ≠ "" ∧ h'.doc.epoch = h.doc.epoch + 1 ∧ Recorded rc.serial n h'.doc := by
  obtain ⟨b, hb, rfl⟩ := revocation.revoked_of_act ha
  obtain ⟨hserial, _, hstate⟩ := revokeCert_cases hb
  refine ⟨hserial, ?_, ?_⟩
  · rw [hstate]
    rfl
  · rw [hstate]
    exact recorded_setCert e.now (fun _ => hlive) fun hne => absurd rfl hne

end Document

/-! ## The invariant -/

/-- What holds once the revocation of `s` is committed. A cache with its epoch has the serial
as long as it matters, and a stamp more than one refresh later has its epoch. -/
structure Known (B : Bounds) (s : String) (n : Int) (c : Commit) (w : World) : Prop where
  named : s ≠ ""
  past : c.time ≤ w.1
  epoch : c.epoch ≤ (docOf w).epoch
  recorded : w.1 ≤ n → Recorded s n (docOf w)
  listed : c.epoch ≤ (cacheOf w).epoch → n < w.1 ∨ s ∈ (cacheOf w).serials
  stamp : c.time + B.refresh < (cacheOf w).fetched → c.epoch ≤ (cacheOf w).epoch

structure Sound (B : Bounds) (s : String) (n : Int) (x : World × Record ι) : Prop where
  stamped : (cacheOf x.1).fetched ≤ x.1.1
  epoch : (cacheOf x.1).epoch ≤ (docOf x.1).epoch
  past : ∀ y ∈ x.2, y.2.after.1 ≤ x.1.1
  locked : holder x.2 ≠ none → (cacheOf x.1).locked = true
  placed : Placed (regOf x.1)
  known : ∀ c, committed s n x.2 = some c → Known B s n c x.1

/-- How the state moves. From the time at which every admission was judged by a cache with
the serial, no session with it comes into the registry. -/
structure Later (R : Replica) (B : Bounds) (s : String) (n : Int) (x y : World × Record ι) :
    Prop where
  clock : x.1.1 ≤ y.1.1
  epoch : (docOf x.1).epoch ≤ (docOf y.1).epoch
  stamp : (cacheOf x.1).fetched ≤ (cacheOf y.1).fetched
  record : x.2 <+: y.2
  commit : ∀ c, committed s n y.2 = some c → committed s n x.2 = some c ∨
    committed s n x.2 = none ∧ x.1.1 ≤ c.time ∧ (docOf x.1).epoch < c.epoch
  sessions : ∀ c, committed s n x.2 = some c →
    c.time + R.ttl + B.refresh + B.admission ≤ x.1.1 → y.1.1 ≤ n →
    ∀ id key ref, Serves s (regOf y.1) id key ref → Serves s (regOf x.1) id key ref

/-- The cache and its mutex are left to the call that holds it. -/
def Leaves (i : ι) (x y : World × Record ι) : Prop :=
  ∀ t, holder x.2 = some (i, t) → cacheOf y.1 = cacheOf x.1 ∧ holder y.2 = some (i, t)

section Later

variable {R : Replica} {B : Bounds} {s : String} {n : Int} {x y z : World × Record ι} {i : ι}

theorem Later.refl (x : World × Record ι) : Later R B s n x x where
  clock := le_refl _
  epoch := le_refl _
  stamp := le_refl _
  record := prefix_refl _
  commit _ h := .inl h
  sessions _ _ _ _ _ _ _ h := h

theorem Later.trans (h : Later R B s n x y) (h' : Later R B s n y z) : Later R B s n x z where
  clock := h.clock.trans h'.clock
  epoch := h.epoch.trans h'.epoch
  stamp := h.stamp.trans h'.stamp
  record := h.record.trans h'.record
  commit := by
    intro c hc
    rcases h'.commit c hc with hy | ⟨hnone, htime, hepoch⟩
    · exact h.commit c hy
    have hx : committed s n x.2 = none := by
      cases hx : committed s n x.2 with
      | none => rfl
      | some d =>
        rw [committed_kept hx h.record] at hnone
        cases hnone
    exact .inr ⟨hx, h.clock.trans htime, h.epoch.trans_lt hepoch⟩
  sessions := by
    intro c hc hlate hn id key ref hserves
    have hy := committed_kept hc h.record
    have hbefore := h'.sessions c hy (hlate.trans h.clock) hn id key ref hserves
    exact h.sessions c hc hlate (h'.clock.trans hn) id key ref hbefore

theorem Later.committed_before (h : Later R B s n x y) {c : Commit}
    (hc : committed s n y.2 = some c) (hold : c.time < x.1.1) : committed s n x.2 = some c := by
  rcases h.commit c hc with hx | ⟨_, htime, _⟩
  · exact hx
  · omega

theorem Leaves.trans (h : Leaves i x y) (h' : Leaves i y z) : Leaves i x z := by
  intro t ht
  obtain ⟨hcache, hy⟩ := h t ht
  obtain ⟨hcache', hz⟩ := h' t hy
  exact ⟨hcache'.trans hcache, hz⟩

end Later

/-! ## The pact -/

/-- What call `i` relies on: the others keep to themselves what it holds, and its part of the
record is its own. -/
structure Relies [DecidableEq ι] (R : Replica) (B : Bounds) (s : String) (n : Int) (i : ι)
    (x y : World × Record ι) : Prop where
  later : Later R B s n x y
  own : own i y.2 = own i x.2
  leaves : Leaves i x y

structure Guards [DecidableEq ι] (R : Replica) (B : Bounds) (s : String) (n : Int) (i : ι)
    (x y : World × Record ι) : Prop where
  later : Later R B s n x y
  own : ∀ j, j ≠ i → own j y.2 = own j x.2
  leaves : ∀ j, j ≠ i → Leaves j x y

def pact (ι : Type) [DecidableEq ι] (R : Replica) (B : Bounds) (s : String) (n : Int) :
    Pact Op ι Env (World × Record ι) where
  inv := Sound B s n
  cond i o e x := timely B s n i o e x = true
  rely := Relies R B s n
  guar := Guards R B s n
  rely_refl _ x := ⟨Later.refl x, rfl, fun _ h => ⟨rfl, h⟩⟩
  rely_trans _ _ _ _ h h' :=
    ⟨h.later.trans h'.later, h'.own.trans h.own, h.leaves.trans h'.leaves⟩
  rely_of_guar _ j _ _ hne _ _ h := ⟨h.later, h.own j (Ne.symm hne), h.leaves j (Ne.symm hne)⟩

/-- The program of call `i` keeps the pact, and ends as it says. -/
abbrev Keeps [DecidableEq ι] (R : Replica) (B : Bounds) (s : String) (n : Int) (i : ι) {α : Type} :=
  Holds (α := α) (machine R).recorded (pact ι R B s n) i

/-- What a call has to know when it stamps or fills the cache, gives its mutex back, or
attaches a session. -/
def Fits [DecidableEq ι] (R : Replica) (B : Bounds) (s : String) (n : Int) (i : ι)
    (x : World × Record ι) : Op → Prop
  | .inl (.inr (.unlock _)) => ∃ since, holder x.2 = some (i, since)
  | .inl (.inr (.touch _ now)) =>
    ∃ since, holder x.2 = some (i, since) ∧ (cacheOf x.1).fetched ≤ now ∧ now ≤ x.1.1 ∧
      ∀ c, committed s n x.2 = some c → c.time < since → c.epoch ≤ (cacheOf x.1).epoch
  | .inl (.inr (.install _ serials epoch now)) =>
    ∃ since, holder x.2 = some (i, since) ∧ (cacheOf x.1).fetched ≤ now ∧ now ≤ x.1.1 ∧
      epoch ≤ (docOf x.1).epoch ∧
      ∀ c, committed s n x.2 = some c →
        (c.time < since → c.epoch ≤ epoch) ∧ (c.epoch ≤ epoch → n < now ∨ s ∈ serials)
  | .inr (.attach _ sl) =>
    sl.certSerial = s → ∃ first, begun i x.2 = some first ∧
      ∀ c, committed s n x.2 = some c → first < c.time + R.ttl + B.refresh ∨ n < x.1.1
  | _ => True

section Keeps

variable {R : Replica} {B : Bounds} {s : String} {n : Int} {i : ι} {e : Env}
  {x y : World × Record ι} {o : Op} {a : Ans o}

theorem Sound.past_step (hx : Sound B s n x) (h : (machine R).recorded.act i o e x = some (a, y)) :
    ∀ z ∈ y.2, z.2.after.1 ≤ y.1.1 := by
  obtain ⟨hact, hlog⟩ := recorded_act h
  rw [hlog]
  intro z hz
  rcases mem_append.mp hz with hz | hz
  · exact (hx.past z hz).trans (act_clock hact).1
  · rw [mem_singleton.mp hz]

theorem own_of_act [DecidableEq ι] (h : (machine R).recorded.act i o e x = some (a, y)) (j : ι)
    (hj : j ≠ i) : own j y.2 = own j x.2 := by
  rw [(recorded_act h).2]
  exact own_append_of_ne (Ne.symm hj) _ _

/-- A step that leaves the cache and the mutex as they are leaves them to everybody. -/
theorem leaves_of_same (hcache : cacheOf y.1 = cacheOf x.1) (hholder : holder y.2 = holder x.2)
    (j : ι) : Leaves j x y :=
  fun _ ht => ⟨hcache, hholder.trans ht⟩

theorem commit_of_quiet (hquiet : commits s n o a = false)
    (h : (machine R).recorded.act i o e x = some (a, y)) :
    committed s n y.2 = committed s n x.2 := by
  rw [(recorded_act h).2]
  exact committed_quiet hquiet

variable [DecidableEq ι]

theorem store_keeps {o : HubOp} {a : HubAns o} (hx : Sound B s n x)
    (hc : timely B s n i (.inl (.inl o)) e x = true)
    (h : (machine R).recorded.act i (.inl (.inl o)) e x = some (a, y)) :
    Sound B s n y ∧ Guards R B s n i x y := by
  obtain ⟨hact, hlog⟩ := recorded_act h
  obtain ⟨hhub, hcaches, hreg⟩ := act_store hact
  obtain ⟨hle, hnow⟩ := act_clock hact
  have hcache : cacheOf y.1 = cacheOf x.1 := congrFun hcaches ()
  have hepoch : (docOf x.1).epoch ≤ (docOf y.1).epoch := hubAct_epoch hhub
  have hholder : holder y.2 = holder x.2 := by
    rw [hlog, holder_append]
    rfl
  -- the only new commit is the one of this step
  have hnew : ∀ c, committed s n y.2 = some c → committed s n x.2 = some c ∨
      committed s n x.2 = none ∧ c.time = y.1.1 ∧ c.epoch = (docOf y.1).epoch ∧
        c.epoch = (docOf x.1).epoch + 1 ∧ s ≠ "" ∧ Recorded s n (docOf y.1) := by
    intro c hcom
    rw [hlog] at hcom
    rcases committed_new hcom with hold | ⟨hnone, hcommits, rfl⟩
    · exact .inl hold
    cases o with
    | revokeCert rc =>
      simp only [commits, Bool.and_eq_true, decide_eq_true_eq] at hcommits
      obtain ⟨⟨rfl, rfl⟩, hlive⟩ := hcommits
      obtain ⟨hserial, hsucc, hrec⟩ := hubAct_commit hhub hlive
      exact .inr ⟨hnone, rfl, rfl, hsucc, hserial, hrec⟩
    | _ => cases hcommits
  have hlast : ∀ c, committed s n x.2 = some c → ∀ rc, o = .revokeCert rc → rc.serial = s →
      certLive n rc = true := by
    rintro c hcom rc rfl hserial
    simpa [timely, hserial, hcom] using hc
  refine ⟨⟨?_, ?_, hx.past_step h, ?_, ?_, ?_⟩, ⟨hle, hepoch, ?_, ?_, ?_, ?_⟩, own_of_act h, ?_⟩
  · rw [hcache]
    exact hx.stamped.trans hle
  · rw [hcache]
    exact hx.epoch.trans hepoch
  · rw [hcache, hholder]
    exact hx.locked
  · rw [hreg]
    exact hx.placed
  · intro c hcom
    rcases hnew c hcom with hold | ⟨_, htime, hdoc, hsucc, hserial, hrec⟩
    · have hk := hx.known c hold
      refine ⟨hk.named, hk.past.trans hle, hk.epoch.trans hepoch, fun hn => ?_, ?_, ?_⟩
      · refine hubAct_recorded hhub (hk.recorded (hle.trans hn)) ?_ (hlast c hold)
        exact hnow.symm.trans_le hn
      · rw [hcache]
        exact fun hin => (hk.listed hin).imp_left fun hlt => hlt.trans_le hle
      · rw [hcache]
        exact hk.stamp
    · -- the cache was filled before this commit
      refine ⟨hserial, htime.le, hdoc.le, fun _ => hrec, fun hin => ?_, fun hin => ?_⟩
      · rw [hcache] at hin
        have hfilled := hx.epoch
        omega
      · rw [hcache] at hin
        have hstamped := hx.stamped
        have hrefresh := B.refresh_nonneg
        omega
  · rw [hcache]
  · rw [hlog]
    exact prefix_append _ _
  · intro c hcom
    rcases hnew c hcom with hold | ⟨hnone, htime, _, hsucc, _⟩
    · exact .inl hold
    · exact .inr ⟨hnone, by omega, by omega⟩
  · rw [hreg]
    exact fun _ _ _ _ _ _ _ hserves => hserves
  · exact fun j _ => leaves_of_same hcache hholder j

/-- What an operation on the cache does to it, and to who holds its mutex. -/
inductive CacheStep (i : ι) (now : Int) (c c' : RevocationCache) (h h' : Option (ι × Int)) :
    CacheOp Unit → Prop
  | read {o : CacheOp Unit} : c' = c → h' = h → CacheStep i now c c' h h' o
  | lock {r : Unit} : c.locked = false → c' = { c with locked := true } → h' = some (i, now) →
      CacheStep i now c c' h h' (.lock r)
  | unlock {r : Unit} : c' = { c with locked := false } → h' = none →
      CacheStep i now c c' h h' (.unlock r)
  | touch {r : Unit} {t : Int} : c' = { c with fetched := t } → h' = h →
      CacheStep i now c c' h h' (.touch r t)
  | install {r : Unit} {serials : List String} {epoch : Nat} {t : Int} :
      c' = { c with serials := serials, epoch := epoch, fetched := t, installedAt := some t } →
      h' = h → CacheStep i now c c' h h' (.install r serials epoch t)

theorem after_of_some {α β : Type} {a a' : α} {u u' : Unit → β}
    (h : some (a, u) = some (a', u')) : u' () = u () := by
  cases h
  rfl

omit [DecidableEq ι] in
theorem cache_step {o : CacheOp Unit} {a : CacheAns o}
    (h : (machine R).recorded.act i (.inl (.inr o)) e x = some (a, y)) :
    CacheStep i y.1.1 (cacheOf x.1) (cacheOf y.1) (holder x.2) (holder y.2) o := by
  obtain ⟨hact, hlog⟩ := recorded_act h
  obtain ⟨hcache, _, _⟩ := act_cache hact
  rw [hlog, holder_append]
  cases o with
  | lock r =>
    simp only [cacheAct] at hcache
    split at hcache
    · cases hcache
    rename_i hfree
    exact .lock (by simpa using hfree) (after_of_some hcache) rfl
  | unlock r =>
    exact .unlock (after_of_some hcache) rfl
  | time | peek =>
    exact .read (after_of_some hcache) rfl
  | touch r t =>
    exact .touch (after_of_some hcache) rfl
  | install r serials epoch t =>
    exact .install (after_of_some hcache) rfl

variable (B s n i x y) in
/-- What a cache step keeps that leaves the cache as `c'`, if its call knows what it has to. -/
structure CacheKept (c' : RevocationCache) : Prop where
  stamped : c'.fetched ≤ y.1.1
  later : (cacheOf x.1).fetched ≤ c'.fetched
  epoch : c'.epoch ≤ (docOf x.1).epoch
  locked : holder y.2 ≠ none → c'.locked = true
  listed : ∀ c, committed s n x.2 = some c → c.epoch ≤ c'.epoch → n < y.1.1 ∨ s ∈ c'.serials
  stamp : ∀ c, committed s n x.2 = some c → c.time + B.refresh < c'.fetched → c.epoch ≤ c'.epoch
  leaves : ∀ j, j ≠ i → Leaves j x y

theorem cacheKept_of_act {o : CacheOp Unit} {a : CacheAns o} (hx : Sound B s n x)
    (hfit : Fits R B s n i x (.inl (.inr o))) (hc : timely B s n i (.inl (.inr o)) e x = true)
    (h : (machine R).recorded.act i (.inl (.inr o)) e x = some (a, y)) :
    CacheKept B s n i x y (cacheOf y.1) := by
  obtain ⟨hle, hnow⟩ := act_clock (recorded_act h).1
  have hlisted : ∀ c, committed s n x.2 = some c → c.epoch ≤ (cacheOf x.1).epoch →
      n < y.1.1 ∨ s ∈ (cacheOf x.1).serials :=
    fun c hcom hin => ((hx.known c hcom).listed hin).imp_left fun hlt => hlt.trans_le hle
  have hstamp := fun c hcom => (hx.known c hcom).stamp
  have hstamped := hx.stamped.trans hle
  cases cache_step h with
  | read hcache hholder =>
    rw [hcache]
    refine ⟨hstamped, le_refl _, hx.epoch, ?_, hlisted, hstamp,
      fun j _ => leaves_of_same hcache hholder j⟩
    rw [hholder]
    exact hx.locked
  | lock hfree hcache hholder =>
    rw [hcache]
    refine ⟨hstamped, le_refl _, hx.epoch, fun _ => rfl, hlisted, hstamp, fun j _ t ht => ?_⟩
    have hheld := hx.locked (by rw [ht]; exact some_ne_none _)
    rw [hfree] at hheld
    cases hheld
  | unlock hcache hholder =>
    rw [hcache]
    refine ⟨hstamped, le_refl _, hx.epoch, fun hne => absurd hholder hne, hlisted, hstamp,
      fun j hj t ht => ?_⟩
    obtain ⟨since, hsince⟩ := hfit
    rw [hsince] at ht
    cases ht
    exact absurd rfl hj
  | @touch r t hcache hholder =>
    obtain ⟨since, hsince, hfetched, hclock, hknown⟩ := hfit
    have hdue : e.now ≤ since + B.refresh := by simpa [timely, hsince] using hc
    rw [hcache]
    refine ⟨hclock.trans hle, hfetched, hx.epoch, ?_, hlisted, fun c hcom hlate => ?_,
      fun j hj t' ht' => ?_⟩
    · rw [hholder]
      exact hx.locked
    · have hbefore : c.time < since := by
        have hlate : c.time + B.refresh < t := hlate
        omega
      exact hknown c hcom hbefore
    · rw [hsince] at ht'
      cases ht'
      exact absurd rfl hj
  | @install r serials epoch t hcache hholder =>
    obtain ⟨since, hsince, hfetched, hclock, hepoch, hknown⟩ := hfit
    have hdue : e.now ≤ since + B.refresh := by simpa [timely, hsince] using hc
    rw [hcache]
    refine ⟨hclock.trans hle, hfetched, hepoch, ?_, fun c hcom hin => ?_, fun c hcom hlate => ?_,
      fun j hj t' ht' => ?_⟩
    · rw [hholder]
      exact hx.locked
    · exact ((hknown c hcom).2 hin).imp_left fun hlt => hlt.trans_le (hclock.trans hle)
    · have hbefore : c.time < since := by
        have hlate : c.time + B.refresh < t := hlate
        omega
      exact (hknown c hcom).1 hbefore
    · rw [hsince] at ht'
      cases ht'
      exact absurd rfl hj

theorem cache_keeps {o : CacheOp Unit} {a : CacheAns o} (hx : Sound B s n x)
    (hfit : Fits R B s n i x (.inl (.inr o))) (hc : timely B s n i (.inl (.inr o)) e x = true)
    (h : (machine R).recorded.act i (.inl (.inr o)) e x = some (a, y)) :
    Sound B s n y ∧ Guards R B s n i x y := by
  obtain ⟨hact, hlog⟩ := recorded_act h
  obtain ⟨_, hhub, hreg⟩ := act_cache hact
  have hle := (act_clock hact).1
  have hk := cacheKept_of_act hx hfit hc h
  have hcom : committed s n y.2 = committed s n x.2 := commit_of_quiet rfl h
  have hdoc : docOf y.1 = docOf x.1 := congrArg Hub.doc hhub
  refine ⟨⟨hk.stamped, ?_, hx.past_step h, hk.locked, ?_, fun c hc' => ?_⟩,
    ⟨hle, ?_, hk.later, ?_, ?_, ?_⟩, own_of_act h, hk.leaves⟩
  · rw [hdoc]
    exact hk.epoch
  · rw [hreg]
    exact hx.placed
  · rw [hcom] at hc'
    have hknown := hx.known c hc'
    refine ⟨hknown.named, hknown.past.trans hle, ?_, ?_, hk.listed c hc', hk.stamp c hc'⟩
    · rw [hdoc]
      exact hknown.epoch
    · rw [hdoc]
      exact fun hn => hknown.recorded (hle.trans hn)
  · rw [hdoc]
  · rw [hlog]
    exact prefix_append _ _
  · rw [hcom]
    exact fun _ hc' => .inl hc'
  · rw [hreg]
    exact fun _ _ _ _ _ _ _ hserves => hserves

/-- A session with the serial that is in the registry after a step was there before, or the
step has attached it. -/
theorem serves_inv {cfg : registry.Config} {env : registry.Env} {r r' : Reg} {o : RegOp}
    {a : RegAns o} (hr : Placed r) (h : Change cfg env r o a r') {id key : String} {ref : Ref}
    (hs : Serves s r' id key ref) :
    Serves s r id key ref ∨ ∃ sl, o = .attach key sl ∧ sl.certSerial = s := by
  obtain ⟨hocc, sl', hsl', hserial⟩ := hs
  rcases h.occupant_inv hocc with hold | ⟨sl, ho, _, href, hheap, _⟩
  · have hlt := hr.admitted hold
    obtain ⟨sl, hsl, _, _, hsame⟩ := h.slot_kept (List.getElem?_eq_getElem hlt)
    rw [hsl'] at hsl
    cases hsl
    exact .inl ⟨hold, _, List.getElem?_eq_getElem hlt, hsame.symm.trans hserial⟩
  · rw [hheap, href] at hsl'
    have hsl : sl = sl' := by simpa using hsl'
    exact .inr ⟨sl, ho, by rw [hsl, hserial]⟩

theorem pool_keeps {o : RegOp} {a : RegAns o} (hx : Sound B s n x)
    (hfit : Fits R B s n i x (.inr o)) (hc : timely B s n i (.inr o) e x = true)
    (h : (machine R).recorded.act i (.inr o) e x = some (a, y)) :
    Sound B s n y ∧ Guards R B s n i x y := by
  obtain ⟨hact, hlog⟩ := recorded_act h
  obtain ⟨hchange, hsame⟩ := act_pool hact
  obtain ⟨hle, hnow⟩ := act_clock hact
  have hcom : committed s n y.2 = committed s n x.2 := commit_of_quiet rfl h
  have hdoc : docOf y.1 = docOf x.1 := congrArg (fun z => z.1.doc) hsame
  have hcache : cacheOf y.1 = cacheOf x.1 := congrArg (fun z => z.2 ()) hsame
  have hholder : holder y.2 = holder x.2 := by
    rw [hlog, holder_append]
    rfl
  refine ⟨⟨?_, ?_, hx.past_step h, ?_, hx.placed.step hchange, fun c hc' => ?_⟩,
    ⟨hle, ?_, ?_, ?_, ?_, ?_⟩, own_of_act h, fun j _ => leaves_of_same hcache hholder j⟩
  · rw [hcache]
    exact hx.stamped.trans hle
  · rw [hcache, hdoc]
    exact hx.epoch
  · rw [hcache, hholder]
    exact hx.locked
  · rw [hcom] at hc'
    have hk := hx.known c hc'
    refine ⟨hk.named, hk.past.trans hle, ?_, ?_, ?_, ?_⟩
    · rw [hdoc]
      exact hk.epoch
    · rw [hdoc]
      exact fun hn => hk.recorded (hle.trans hn)
    · rw [hcache]
      exact fun hin => (hk.listed hin).imp_left fun hlt => hlt.trans_le hle
    · rw [hcache]
      exact hk.stamp
  · rw [hdoc]
  · rw [hcache]
  · rw [hlog]
    exact prefix_append _ _
  · rw [hcom]
    exact fun _ hc' => .inl hc'
  · intro c hc' hlate hn id key ref hserves
    rcases serves_inv hx.placed hchange hserves with hbefore | ⟨sl, rfl, hserial⟩
    · exact hbefore
    -- an admission that begins in time for the serial is judged by a cache that has it
    obtain ⟨first, hfirst, hjudged⟩ := hfit hserial
    have hdue : e.now ≤ first + B.admission := by simpa [timely, hfirst] using hc
    have hcases := hjudged c hc'
    omega

theorem act_keeps (hx : Sound B s n x) (hfit : Fits R B s n i x o)
    (hc : timely B s n i o e x = true) (h : (machine R).recorded.act i o e x = some (a, y)) :
    Sound B s n y ∧ Guards R B s n i x y := by
  rcases o with (o | o) | o
  · exact store_keeps hx hc h
  · exact cache_keeps hx hfit hc h
  · exact pool_keeps hx hfit hc h

end Keeps

/-! ## The rules -/

section Rules

variable [DecidableEq ι] {R : Replica} {B : Bounds} {s : String} {n : Int} {i : ι} {e : Env}
  {x y : World × Record ι} {α : Type} {Q : α → World × Record ι → Prop} {o : Op}
  {k : Ans o → Call α}

theorem op_rule (h : ∀ t, Relies R B s n i x t → Sound B s n t → Fits R B s n i t o ∧
      ∀ e a u, (machine R).recorded.act i o e t = some (a, u) → Sound B s n u →
        Guards R B s n i t u → Keeps R B s n i (k a) Q u) : Keeps R B s n i (.op o k) Q x := by
  intro t ht hs e hc a u hu
  obtain ⟨hfit, hrest⟩ := h t ht hs
  obtain ⟨hsound, hguards⟩ := act_keeps hs hfit hc hu
  exact ⟨hsound, hguards, hrest e a u hu hsound hguards⟩

/-- A program whose operations all fit what stays true. -/
theorem only_rule {F : World × Record ι → Prop}
    (hF : ∀ y z, Later R B s n y z → F y → F z) {p : Call α}
    (hp : p.Only fun o => ∀ y, F y → Fits R B s n i y o) (hx : F x) :
    Keeps R B s n i p (fun _ y => F y) x := by
  induction p generalizing x with
  | done a => exact fun t ht _ => hF x t ht.later hx
  | op o k ih =>
    refine op_rule fun t ht _ => ?_
    have hFt := hF x t ht.later hx
    exact ⟨hp.1 t hFt, fun _ a u _ _ hu => ih a (hp.2 a) (hF t u hu.later hFt)⟩

/-- The operations that only read. -/
def reads : Op → Bool
  | .inl (.inl .readEpoch) => true
  | .inl (.inl .listRevokedCerts) => true
  | .inl (.inr .time) => true
  | .inl (.inr (.peek _)) => true
  | _ => false

omit [DecidableEq ι] in
theorem reads_act {a : Ans o} (ho : reads o = true)
    (h : (machine R).recorded.act i o e x = some (a, y)) :
    docOf y.1 = docOf x.1 ∧ cacheOf y.1 = cacheOf x.1 ∧ holder y.2 = holder x.2 := by
  obtain ⟨hact, hlog⟩ := recorded_act h
  rw [hlog, holder_append]
  rcases o with (o | o) | o
  · obtain ⟨hhub, hcache, _⟩ := act_store hact
    cases o with
    | readEpoch | listRevokedCerts =>
      have hafter := (Prod.mk.inj (Option.some.inj hhub)).2
      exact ⟨congrArg Hub.doc hafter.symm, congrFun hcache (), rfl⟩
    | _ => cases ho
  · obtain ⟨hcache, hhub, _⟩ := act_cache hact
    cases o with
    | time | peek =>
      exact ⟨congrArg Hub.doc hhub, after_of_some hcache, rfl⟩
    | _ => cases ho
  · cases ho

theorem reads_fits (ho : reads o = true) : Fits R B s n i x o := by
  rcases o with (o | o) | o
  · exact trivial
  · cases o with
    | time | peek => exact trivial
    | _ => cases ho
  · cases ho

/-- The call has held the mutex of the cache `c` since then. -/
structure Held (B : Bounds) (s : String) (n : Int) (i : ι) (since : Int) (c : RevocationCache)
    (x : World × Record ι) : Prop where
  sound : Sound B s n x
  holds : holder x.2 = some (i, since)
  cache : cacheOf x.1 = c
  since_le : since ≤ x.1.1

variable {c : RevocationCache} {since : Int}

theorem Held.stable (h : Held B s n i since c x) (hr : Relies R B s n i x y) (hy : Sound B s n y) :
    Held B s n i since c y := by
  obtain ⟨hcache, hholder⟩ := hr.leaves since h.holds
  exact ⟨hy, hholder, hcache.trans h.cache, h.since_le.trans hr.later.clock⟩

theorem held_rule (hx : Held B s n i since c x) (ho : reads o = true)
    (h : ∀ t e a u, Held B s n i since c t → (machine R).recorded.act i o e t = some (a, u) →
      Later R B s n x t → Later R B s n t u → docOf u.1 = docOf t.1 → Held B s n i since c u →
      Keeps R B s n i (k a) Q u) : Keeps R B s n i (.op o k) Q x := by
  refine op_rule fun t ht hs => ⟨reads_fits ho, fun e a u hu hsu hguards => ?_⟩
  have hheld := hx.stable ht hs
  obtain ⟨hdoc, hcache, hholder⟩ := reads_act ho hu
  refine h t e a u hheld hu ht.later hguards.later hdoc ?_
  exact ⟨hsu, hholder.trans hheld.holds, hcache.trans hheld.cache,
    hheld.since_le.trans hguards.later.clock⟩

section Answers

omit [DecidableEq ι]

theorem peek_ans {r : Unit} {a : RevocationCache}
    (h : (machine R).recorded.act i (.inl (.inr (.peek r))) e x = some (a, y)) :
    a = cacheOf x.1 := by
  obtain ⟨hcache, _⟩ := act_cache (recorded_act h).1
  exact (Prod.mk.inj (Option.some.inj hcache)).1.symm

theorem time_ans {a : Int}
    (h : (machine R).recorded.act i (.inl (.inr .time)) e x = some (a, y)) : a = y.1.1 := by
  obtain ⟨hcache, _⟩ := act_cache (recorded_act h).1
  rw [(act_clock (recorded_act h).1).2]
  exact (Prod.mk.inj (Option.some.inj hcache)).1.symm

theorem epoch_ans {a : Except StoreErr Nat}
    (h : (machine R).recorded.act i (.inl (.inl .readEpoch)) e x = some (a, y)) :
    a = .ok (docOf x.1).epoch := by
  obtain ⟨hhub, _⟩ := act_store (recorded_act h).1
  exact (Prod.mk.inj (Option.some.inj hhub)).1.symm

theorem list_ans {a : Except StoreErr (List RevokedCert)}
    (h : (machine R).recorded.act i (.inl (.inl .listRevokedCerts)) e x = some (a, y)) :
    a = .ok (listRevokedCerts e.visits (docOf x.1)) := by
  obtain ⟨hhub, _⟩ := act_store (recorded_act h).1
  exact (Prod.mk.inj (Option.some.inj hhub)).1.symm

end Answers

end Rules

end prom_fleet.enforcer
