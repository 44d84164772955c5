-- The calls of a replica under the pact of `EnforcerLaws`: what a refresh leaves in the
-- cache, what an evaluation may answer, whom a handshake admits and what a pass of the
-- enforcer takes out. The bound for a revocation is read off their ends.
import PromFleet.EnforcerLaws

namespace prom_fleet.enforcer

open interleave store map_range hub List Prog revocation registry

variable {ι : Type} [DecidableEq ι] {R : Replica} {B : Bounds} {s : String} {n : Int} {i : ι}
  {x y : World × Record ι} {since : Int} {c : RevocationCache}

/-! ## A refresh -/

/-- The refresh has succeeded, its call still holds the mutex, and the stamp is not older than
the time to live when the mutex was taken. -/
def Refreshes (R : Replica) (i : ι) (since : Int) (r : Except StoreErr Refreshed)
    (y : World × Record ι) : Prop :=
  (∃ z, r = .ok z) ∧ holder y.2 = some (i, since) ∧ since - R.ttl < (cacheOf y.1).fetched

/-- The refresh that ends with this cache has refreshed it. -/
theorem Held.refreshes (h : Held B s n i since c x) (z : Refreshed)
    (hfresh : since - R.ttl < c.fetched) : Keeps R B s n i (.done (.ok z))
      (Refreshes R i since) x := by
  intro t ht hs
  have hheld := h.stable ht hs
  refine ⟨⟨z, rfl⟩, hheld.holds, ?_⟩
  rw [hheld.cache]
  exact hfresh

/-- What is known of an epoch that was read under the mutex: it has every commit from before
the mutex was taken, and each commit that it has was there when it was read. -/
structure EpochRead (R : Replica) (B : Bounds) (s : String) (n : Int) (since : Int) (epoch : Nat)
    (x : World × Record ι) : Prop where
  le : epoch ≤ (docOf x.1).epoch
  covers : ∀ c, committed s n x.2 = some c → c.time < since → c.epoch ≤ epoch

variable {epoch : Nat}

omit [DecidableEq ι] in
theorem EpochRead.later (h : EpochRead R B s n since epoch x) (hl : Later R B s n x y)
    (hsince : since ≤ x.1.1) : EpochRead R B s n since epoch y where
  le := h.le.trans hl.epoch
  covers := by
    intro c hc hbefore
    exact h.covers c (hl.committed_before hc (hbefore.trans_le hsince)) hbefore

omit [DecidableEq ι] in
theorem fetched_of_write {e : Env} {r : Unit} {now : Int} {o : CacheOp Unit} {a : CacheAns o}
    (ho : o = .touch r now ∨ ∃ serials epoch, o = .install r serials epoch now)
    (h : (machine R).recorded.act i (.inl (.inr o)) e x = some (a, y)) :
    (cacheOf y.1).fetched = now ∧ holder y.2 = holder x.2 := by
  obtain ⟨hact, hlog⟩ := recorded_act h
  rw [hlog, holder_append]
  rcases ho with rfl | ⟨serials, epoch, rfl⟩
  all_goals
    have hafter := (Prod.mk.inj (Option.some.inj (act_cache hact).1)).2
    exact ⟨congrArg RevocationCache.fetched (congrFun hafter.symm ()), rfl⟩

variable (hx : Held B s n i since c x)

include hx

theorem stamped_rule {z : World × Record ι} {now : Int}
    (hz : Sound B s n z) (hl : Later R B s n x z) (hholder : holder z.2 = holder x.2)
    (hfetched : (cacheOf z.1).fetched = now) (hnow : since ≤ now) (r : Refreshed) :
    Keeps R B s n i (.done (.ok r)) (Refreshes R i since) z := by
  have hheld : Held B s n i since (cacheOf z.1) z :=
    ⟨hz, hholder.trans hx.holds, rfl, hx.since_le.trans hl.clock⟩
  refine hheld.refreshes r ?_
  have httl := R.ttl_pos
  omega

theorem relist_spec (he : EpochRead R B s n since epoch x)
    (hfetched : c.fetched ≤ x.1.1) : Keeps R B s n i (relist (keeper R) epoch).inl
      (Refreshes R i since) x := by
  have hread : (keeper R).readList = Prog.call HubOp.listRevokedCerts := rfl
  simp only [relist, hread, time, install, inl_call, inr_call, call_bind, Prog.inl]
  refine held_rule hx rfl fun t e a u ht hlist hxt htu _ hu => ?_
  rw [list_ans hlist]
  refine held_rule hu rfl fun t₂ e₂ (now : Int) v _ htime hut₂ ht₂v _ hv => ?_
  have hnow := time_ans htime
  have hclock : t.1.1 ≤ now := by
    have h₁ := htu.clock
    have h₂ := hut₂.clock
    have h₃ := ht₂v.clock
    omega
  have hread : EpochRead R B s n since epoch t := he.later hxt hx.since_le
  refine op_rule fun w hw hsw => ⟨?_, fun _ _ z hz hsz hguards => ?_⟩
  · have hheld := hv.stable hw hsw
    have htw : Later R B s n t w := ((htu.trans hut₂).trans ht₂v).trans hw.later
    have hwread := hread.later htw ht.since_le
    refine ⟨since, hheld.holds, ?_, ?_, hwread.le, fun d hd => ⟨hwread.covers d hd, fun hin => ?_⟩⟩
    · rw [hheld.cache]
      have h₀ := hxt.clock
      omega
    · rw [hnow]
      exact hw.later.clock
    · -- the list was read after the commit, so it has the entry unless it is too late for it
      rcases htw.commit d hd with hbefore | ⟨_, _, hlt⟩
      · by_cases hlate : n < now
        · exact .inl hlate
        · refine .inr ?_
          have hrec := (ht.sound.known d hbefore).recorded (by omega)
          exact hrec.mem_liveSerials _ (by omega)
      · have hle := hread.le
        omega
  · obtain ⟨hstamp, hholder⟩ := fetched_of_write (.inr ⟨_, _, rfl⟩) hz
    have hsince := hv.since_le
    exact stamped_rule (hv.stable hw hsw) hsz hguards.later hholder hstamp (by omega) _

theorem refreshLocked_spec :
    Keeps R B s n i (refreshLocked (keeper R)).inl (Refreshes R i since) x := by
  have hread : (keeper R).readEpoch = Prog.call HubOp.readEpoch := rfl
  simp only [refreshLocked, hread, peek, time, touch, inl_call,
    inr_call, call_bind, Prog.inl]
  refine held_rule hx rfl fun t e (c₁ : RevocationCache) u ht hpeek _ _ _ hu => ?_
  have hc₁ : c₁ = c := (peek_ans hpeek).trans ht.cache
  refine held_rule hu rfl fun t₂ e₂ (now : Int) v _ htime _ _ _ hv => ?_
  have hnow := time_ans htime
  split
  · rename_i hlt
    have hfresh : now - c₁.fetched < R.ttl := hlt
    refine hv.refreshes .fresh ?_
    have hsince := hv.since_le
    rw [hc₁] at hfresh
    omega
  · refine held_rule hv rfl fun t₃ e₃ a w ht₃ hread _ _ hdoc hw => ?_
    rw [epoch_ans hread]
    have hepoch : EpochRead R B s n since (docOf t₃.1).epoch w := by
      refine ⟨by rw [hdoc], fun d hd _ => ?_⟩
      rw [← hdoc]
      exact (hw.sound.known d hd).epoch
    refine held_rule hw rfl fun t₄ e₄ (c₂ : RevocationCache) w' ht₄ hpeek' hwt₄ ht₄w' _ hw' => ?_
    have hc₂ : c₂ = c := (peek_ans hpeek').trans ht₄.cache
    have hepoch' := hepoch.later (hwt₄.trans ht₄w') hw.since_le
    have hfetched : c.fetched ≤ w'.1.1 := by
      rw [← hw'.cache]
      exact hw'.sound.stamped
    dsimp only
    split
    · rename_i hunchanged
      have hsame : (docOf t₃.1).epoch = c₂.epoch := hunchanged.1
      refine held_rule hw' rfl fun t₅ e₅ (now' : Int) z _ htime' hw't₅ ht₅z _ hz => ?_
      have hnow' := time_ans htime'
      refine op_rule fun q hq hsq => ⟨?_, fun _ _ q' hq' hsq' hguards => ?_⟩
      · have hheld := hz.stable hq hsq
        have hqread := hepoch'.later ((hw't₅.trans ht₅z).trans hq.later) hw'.since_le
        refine ⟨since, hheld.holds, ?_, ?_, fun d hd hbefore => ?_⟩
        · rw [hheld.cache]
          have h₁ := hw't₅.clock
          have h₂ := ht₅z.clock
          omega
        · rw [hnow']
          exact hq.later.clock
        · rw [hheld.cache, ← hc₂, ← hsame]
          exact hqread.covers d hd hbefore
      · obtain ⟨hstamp, hholder⟩ := fetched_of_write (.inl rfl) hq'
        have hsince := hz.since_le
        exact stamped_rule (hz.stable hq hsq) hsq' hguards.later hholder hstamp (by omega) _
    · exact relist_spec hw' hepoch' hfetched

omit hx

theorem refresh_spec (x : World × Record ι) : Keeps R B s n i (refresh R)
      (fun r y => (∃ z, r = .ok z) ∧ x.1.1 - R.ttl < (cacheOf y.1).fetched) x := by
  simp only [refresh, hub.refresh, hub.lock, hub.unlock, inr_call, call_bind, Prog.inl]
  refine op_rule fun t ht _ => ⟨trivial, fun e _ u hlock hsu hguards => ?_⟩
  have hholder : holder u.2 = some (i, u.1.1) := by
    rw [(recorded_act hlock).2, holder_append]
    rfl
  have hheld : Held B s n i u.1.1 (cacheOf u.1) u := ⟨hsu, hholder, rfl, le_refl _⟩
  have hxu := ht.later.clock.trans hguards.later.clock
  rw [inl_bind]
  refine (refreshLocked_spec hheld).seq hsu fun r v _ hr => ?_
  obtain ⟨hok, hv, hfetched⟩ := hr
  refine op_rule fun w hw hsw => ⟨⟨_, (hw.leaves _ hv).2⟩, fun e' _ z hunlock _ hguards' => ?_⟩
  intro q hq _
  have h₁ := hw.later.stamp
  have h₂ := hguards'.later.stamp
  have h₃ := hq.later.stamp
  exact ⟨hok, by omega⟩

/-! ## An evaluation -/

variable (R B s n i) in
/-- The answer `b` of an evaluation that has begun at `first` knows the revocation, if that was
committed long enough before, or some step of the evaluation came too late for it. -/
def Told (first : Int) (b : Bool) (y : World × Record ι) : Prop :=
  ∀ d, committed s n y.2 = some d → d.time + R.ttl + B.refresh ≤ first →
    b = true ∨ ∃ ev ∈ own i y.2, ev.op.isLeft = true ∧ n < ev.after.1

variable (R B s n i x) in
/-- The evaluation that is done has begun at `first`, with the event `ev`. -/
structure Evaluated (b : Bool) (y : World × Record ι) (ev : Event Ans Env World) : Prop where
  begins : x.1.1 ≤ ev.after.1
  begun : own i x.2 ++ [ev] <+: own i y.2
  past : ev.after.1 ≤ y.1.1
  told : Told R B s n i ev.after.1 b y

omit [DecidableEq ι] in
/-- A stamp that is late enough after the commit tells that the cache has the serial, as long
as it matters. -/
theorem Sound.serial_cached {d : Commit} (hx : Sound B s n x) (hd : committed s n x.2 = some d)
    (hstamp : d.time + B.refresh < (cacheOf x.1).fetched) : n < x.1.1 ∨ s ∈ (cacheOf x.1).serials :=
  (hx.known d hd).listed ((hx.known d hd).stamp hstamp)

variable {e : Env} {o : Op} {a : Ans o}

theorem own_of_self (h : (machine R).recorded.act i o e x = some (a, y)) :
    own i y.2 = own i x.2 ++ [⟨o, e, a, x.1, y.1⟩] := by
  rw [(recorded_act h).2]
  exact own_append_self _ _

theorem read_event (h : (machine R).recorded.act i o e x = some (a, y)) (ho : o.isLeft = true) :
    ∃ ev ∈ own i y.2, ev.op.isLeft = true ∧ ev.after.1 = y.1.1 := by
  refine ⟨⟨o, e, a, x.1, y.1⟩, ?_, ho, rfl⟩
  rw [own_of_self h]
  exact mem_append_right _ (mem_singleton_self _)

variable {b : Bool} {first : Int}

theorem told_rule {u v : World × Record ι} (hu : Sound B s n u) (hfirst : first ≤ u.1.1)
    (huv : Later R B s n u v) (hevent : ∃ ev ∈ own i u.2, ev.op.isLeft = true ∧ ev.after.1 = u.1.1)
    (hcached : s ∈ (cacheOf u.1).serials → b = true)
    (hfresh : b = true ∨ first - R.ttl < (cacheOf u.1).fetched) : Told R B s n i first b v := by
  intro d hd hold
  have hbefore : d.time < u.1.1 := by
    have httl := R.ttl_pos
    have hrefresh := B.refresh_nonneg
    omega
  have hdu := huv.committed_before hd hbefore
  rcases hfresh with hb | hfresh
  · exact .inl hb
  rcases hu.serial_cached hdu (by omega) with hlate | hin
  · obtain ⟨ev, hev, hleft, htime⟩ := hevent
    exact .inr ⟨ev, (own_grows i huv.record).subset hev, hleft, by omega⟩
  · exact .inl (hcached hin)

variable {α : Type}

/-- What is later than the begin of a program is later than its begin at its end. -/
theorem later_frame {p : Call α} {Q : α → World × Record ι → Prop} (h : Keeps R B s n i p Q x) :
    Keeps R B s n i p (fun a y => Q a y ∧ Later R B s n x y) x :=
  Holds.frame (fun _ _ ht hx => hx.trans ht.later) (fun _ _ ht hx => hx.trans ht.later)
    (Later.refl x) h

theorem isRevoked_spec (serial : String) (x : World × Record ι) :
    Keeps R B s n i (isRevoked R serial)
      (fun b y => serial = s → ∃ ev, Evaluated R B s n i x b y ev) x := by
  simp only [isRevoked, hub.isRevoked, hub.peek, hub.time, inr_call, call_bind, Prog.inl]
  refine op_rule fun t ht _ =>
    ⟨trivial, fun e (c₁ : RevocationCache) u hpeek hsu hguards => ?_⟩
  have hown := own_of_self hpeek
  rw [ht.own] at hown
  have hc₁ : cacheOf u.1 = c₁ := by
    rw [(reads_act rfl hpeek).2.1]
    exact (peek_ans hpeek).symm
  have hxu := ht.later.clock.trans hguards.later.clock
  -- what is left to show at the end: that the evaluation was told
  have hend : ∀ {b : Bool} {y : World × Record ι}, Later R B s n u y →
      (serial = s → Told R B s n i u.1.1 b y) →
      serial = s → ∃ ev, Evaluated R B s n i x b y ev := by
    intro b y huy htold hserial
    refine ⟨⟨.inl (.inr (.peek ())), e, c₁, t.1, u.1⟩, hxu, ?_, huy.clock, htold hserial⟩
    rw [← hown]
    exact own_grows i huy.record
  refine op_rule fun t₂ ht₂ _ => ⟨trivial, fun e₂ (now : Int) v htime hsv hguards₂ => ?_⟩
  have hnow := time_ans htime
  have huv : Later R B s n u v := ht₂.later.trans hguards₂.later
  have hclock := huv.clock
  split
  · rename_i hknown
    intro y hy _
    refine hend (huv.trans hy.later) fun hserial => ?_
    subst hserial
    refine told_rule hsu (le_refl _) (huv.trans hy.later) ?_ ?_ ?_
    · exact read_event hpeek rfl
    · rw [hc₁]
      exact fun hin => contains_iff_mem.mpr hin
    rw [hc₁]
    rcases Bool.or_eq_true_iff.mp hknown with hin | hfresh
    · exact .inl hin
    · have hfresh : now - c₁.fetched < R.ttl := of_decide_eq_true hfresh
      exact .inr (by omega)
  · rw [inl_bind]
    refine (later_frame (refresh_spec v)).seq hsv fun r w _ hr => ?_
    obtain ⟨⟨⟨z, rfl⟩, hfetched⟩, hvw⟩ := hr
    refine op_rule fun t₃ ht₃ _ =>
      ⟨trivial, fun e₃ (c₂ : RevocationCache) q hpeek₂ hsq hguards₃ => ?_⟩
    have hc₂ : cacheOf q.1 = c₂ := by
      rw [(reads_act rfl hpeek₂).2.1]
      exact (peek_ans hpeek₂).symm
    have hwq : Later R B s n w q := ht₃.later.trans hguards₃.later
    have huq : Later R B s n u q := (huv.trans hvw).trans hwq
    intro y hy _
    refine hend (huq.trans hy.later) fun hserial => ?_
    subst hserial
    refine told_rule hsq huq.clock hy.later ?_ ?_ ?_
    · exact read_event hpeek₂ rfl
    · rw [hc₂]
      exact fun hin => contains_iff_mem.mpr hin
    · have hstamp := hwq.stamp
      exact .inr (by omega)

/-! ## Whom a call attaches -/

/-- The slots that the operation attaches have this serial. -/
def AttachesOnly (P : String → Prop) (o : RegOp) : Prop :=
  ∀ key sl, o = .attach key sl → P sl.certSerial

section Only

variable {P : String → Prop} {α : Type}

theorem attachesOnly_of_ne {o : RegOp} (h : ∀ key sl, o ≠ .attach key sl) : AttachesOnly P o :=
  fun key sl ho => absurd ho (h key sl)

theorem only_of_still {p : registry.Call α} (hp : p.Only registry.Still) :
    p.Only (AttachesOnly P) := by
  refine hp.mono fun o ho => attachesOnly_of_ne fun key sl hattach => ?_
  subst hattach
  cases ho

theorem onSession_only (cfg : registry.Config) (sess : Session) :
    (registry.onSession cfg (some sess)).Only
      (AttachesOnly fun serial => serial = sess.identity.certSerial) := by
  unfold registry.onSession
  dsimp only
  split
  · exact trivial
  simp only [call_bind]
  refine ⟨attachesOnly_of_ne (by simp), fun closed => ?_⟩
  cases closed with
  | true => exact trivial
  | false =>
    refine ⟨attachesOnly_of_ne (by simp), fun reply => ?_⟩
    cases reply with
    | none => exact trivial
    | some facts =>
      refine ⟨attachesOnly_of_ne (by simp), fun gen => ?_⟩
      refine .bind (only_of_still (registry.slotKey_still _)) fun key => ?_
      refine .bind (only_of_still (registry.clusterFrom_still _ _ _ _)) fun cluster => ?_
      cases cluster with
      | none => exact trivial
      | some cluster =>
        refine ⟨?_, fun attached => ?_⟩
        · rintro _ _ ⟨⟩
          rfl
        rcases attached with err | ⟨ref, _ | prev⟩
        · exact trivial
        · exact trivial
        · exact ⟨attachesOnly_of_ne (by simp), fun _ => trivial⟩

theorem closeVictims_only (victims : List Victim) :
    (registry.closeVictims victims).Only (AttachesOnly P) := by
  unfold registry.closeVictims
  split
  · exact trivial
  simp only [call_bind]
  refine ⟨attachesOnly_of_ne (by simp), fun now => ⟨attachesOnly_of_ne (by simp), fun vs => ?_⟩⟩
  exact .bind (only_of_still (registry.closeSessions_still _)) fun _ => trivial

theorem closeRevoked_only (serials : List String) :
    (registry.closeRevoked serials).Only (AttachesOnly P) := by
  unfold registry.closeRevoked
  split
  · exact trivial
  refine ⟨attachesOnly_of_ne (by simp), fun cs => ?_⟩
  have hjudge := registry.judge_still (fun serial => return decide (serial ∈ serials))
    (fun _ => trivial) cs ∅
  exact .bind (f := registry.closeVictims) (only_of_still hjudge) closeVictims_only

end Only

variable (R B s n i y) in
/-- The call that attaches sessions with the serial has begun its evaluation too soon after the
revocation, or it is too late for it. -/
def Excused : Prop :=
  ∃ first, begun i y.2 = some first ∧ first ≤ y.1.1 ∧
    ∀ d, committed s n y.2 = some d → first < d.time + R.ttl + B.refresh ∨ n < y.1.1

theorem Excused.later (h : Excused R B s n i x) (hl : Later R B s n x y) : Excused R B s n i y := by
  obtain ⟨first, hfirst, hpast, hall⟩ := h
  refine ⟨first, begun_kept hfirst hl.record, hpast.trans hl.clock, fun d hd => ?_⟩
  have hclock := hl.clock
  rcases hl.commit d hd with hbefore | ⟨_, htime, _⟩
  · have := hall d hbefore
    omega
  · have httl := R.ttl_pos
    have hrefresh := B.refresh_nonneg
    omega

variable {p : registry.Call α}

theorem pool_rule {P : String → Prop} (hp : p.Only (AttachesOnly P))
    (hx : ∀ serial, P serial → serial = s → Excused R B s n i x) :
    Keeps R B s n i p.inr (fun _ _ => True) x := by
  let F : World × Record ι → Prop := fun y => ∀ serial, P serial → serial = s → Excused R B s n i y
  have hF : ∀ y z, Later R B s n y z → F y → F z :=
    fun y z hl hy serial hP hserial => (hy serial hP hserial).later hl
  have honly : (p.inr : Call α).Only fun o => ∀ y, F y → Fits R B s n i y o := by
    refine .inr (Prog.Only.mono (fun o ho y hy => ?_) hp)
    cases o with
    | attach key sl =>
      intro hserial
      obtain ⟨first, hfirst, _, hall⟩ := hy sl.certSerial (ho key sl rfl) hserial
      exact ⟨first, hfirst, hall⟩
    | _ => exact trivial
  exact (only_rule hF honly hx).mono fun _ _ _ _ => trivial

theorem quiet_pool (hp : p.Only (AttachesOnly fun _ => False)) :
    Keeps R B s n i p.inr (fun _ _ => True) x :=
  pool_rule hp fun _ hfalse => hfalse.elim

variable {ev : Event Ans Env World}

theorem mem_of_own {log : Record ι} (h : ev ∈ own i log) : (i, ev) ∈ log := by
  obtain ⟨⟨j, ev'⟩, hmem, rfl⟩ := mem_map.mp h
  obtain ⟨hlog, hj⟩ := mem_filter.mp hmem
  have hj : j = i := of_decide_eq_true hj
  rw [← hj]
  exact hlog

/-- A first evaluation that says no excuses its call. -/
theorem Evaluated.excused (h : Evaluated R B s n i x b y ev) (hy : Sound B s n y)
    (hown : own i x.2 = []) (hb : b = false) : Excused R B s n i y := by
  refine ⟨ev.after.1, ?_, h.past, fun d hd => ?_⟩
  · obtain ⟨rest, hrest⟩ := h.begun
    unfold enforcer.begun
    rw [← hrest, hown]
    rfl
  · by_cases hold : d.time + R.ttl + B.refresh ≤ ev.after.1
    · rcases h.told d hd hold with htrue | ⟨ev', hev', _, hlate⟩
      · rw [hb] at htrue
        cases htrue
      · exact .inr (hlate.trans_le (hy.past _ (mem_of_own hev')))
    · exact .inl (by omega)

theorem handshake_spec (sess : Session) (proven : Bool) (hx : Sound B s n x)
    (hown : own i x.2 = []) : Keeps R B s n i (handshake R sess proven) (fun _ _ => True) x := by
  refine (isRevoked_spec sess.identity.certSerial x).seq hx fun b y hy hb => ?_
  cases b with
  | true => exact fun _ _ _ => trivial
  | false =>
    cases proven with
    | false => exact fun _ _ _ => trivial
    | true =>
      refine .map (pool_rule (onSession_only R.registry sess) fun serial hserial heq => ?_)
      obtain ⟨ev, hev⟩ := hb (hserial.symm.trans heq)
      exact hev.excused hy hown rfl

/-! ## A pass of the enforcer -/

variable (R B s n first) in
/-- The verdict `b` on the serial knows a revocation from long enough before `first`. -/
def Answers (b : Bool) (y : World × Record ι) : Prop :=
  ∀ d, committed s n y.2 = some d → d.time + R.ttl + B.refresh ≤ first → b = true ∨ n < y.1.1

section

omit [DecidableEq ι]

variable {first : Int}

/-- What is committed long enough before a time that has passed stays committed. -/
theorem Later.committed_old {d : Commit} (hl : Later R B s n x y) (hd : committed s n y.2 = some d)
    (hold : d.time + R.ttl + B.refresh ≤ first) (hfirst : first ≤ x.1.1) :
    committed s n x.2 = some d := by
  have httl := R.ttl_pos
  have hrefresh := B.refresh_nonneg
  exact hl.committed_before hd (by omega)

theorem Answers.later (h : Answers R B s n first b x) (hl : Later R B s n x y)
    (hfirst : first ≤ x.1.1) : Answers R B s n first b y := by
  intro d hd hold
  exact (h d (hl.committed_old hd hold hfirst) hold).imp_right fun hlt => hlt.trans_le hl.clock

end

theorem Evaluated.answers (h : Evaluated R B s n i x b y ev) (hy : Sound B s n y)
    (hfirst : first ≤ x.1.1) : Answers R B s n first b y := by
  intro d hd hold
  rcases h.told d hd (hold.trans (hfirst.trans h.begins)) with htrue | ⟨ev', hev', _, hlate⟩
  · exact .inl htrue
  · exact .inr (hlate.trans_le (hy.past _ (mem_of_own hev')))

variable (R B s n first) in
/-- The victims have every candidate with the serial. -/
def Judged (cs : List Victim) (victims : List Victim) (y : World × Record ι) : Prop :=
  ∀ d, committed s n y.2 = some d → d.time + R.ttl + B.refresh ≤ first →
    (∀ v ∈ cs, v.certSerial = s → v ∈ victims) ∨ n < y.1.1

theorem judge_spec (cs : List Victim) (verdict : StrMap Bool) (hx : Sound B s n x)
    (hfirst : first ≤ x.1.1) (hverdict : ∀ b, verdict.lookup s = some b → Answers R B s n first b x)
    : Keeps R B s n i (judge (isRevoked R) cs verdict) (Judged R B s n first cs) x := by
  induction cs generalizing verdict x with
  | nil => exact fun _ _ _ _ _ _ => .inl fun _ hv => by cases hv
  | cons c cs ih =>
    -- the rest of the loop, with the verdict on the first candidate
    have hrest : ∀ revoked y, Sound B s n y → Later R B s n x y →
        (c.certSerial = s → Answers R B s n first revoked y) →
        Keeps R B s n i
          (judge (isRevoked R) cs (verdict.insert c.certSerial revoked) >>= fun victims =>
            (return if revoked then c :: victims else victims : Call (List Victim)))
          (Judged R B s n first (c :: cs)) y := by
      intro revoked y hy hxy hanswers
      have hfirsty := hfirst.trans hxy.clock
      refine .map ((later_frame (ih _ hy hfirsty fun b hb => ?_)).mono ?_)
      · obtain ⟨rfl, rfl⟩ | ⟨_, hold⟩ := map_range.lookup_insert_cases hb
        · exact hanswers rfl
        · exact (hverdict b hold).later hxy hfirst
      · rintro victims z hz ⟨hjudged, hyz⟩ d hd hold
        rcases hjudged d hd hold with hall | hlate
        · by_cases hc : c.certSerial = s
          · rcases (hanswers hc).later hyz hfirsty d hd hold with htrue | hlate
            · refine .inl fun v hv hserial => ?_
              rw [if_pos htrue]
              rcases mem_cons.mp hv with rfl | hv
              · exact mem_cons_self
              · exact mem_cons_of_mem _ (hall v hv hserial)
            · exact .inr hlate
          · refine .inl fun v hv hserial => ?_
            rcases mem_cons.mp hv with rfl | hv
            · exact absurd hserial hc
            have hin := hall v hv hserial
            split
            · exact mem_cons_of_mem _ hin
            · exact hin
        · exact .inr hlate
    unfold judge
    cases hlookup : verdict.lookup c.certSerial with
    | some revoked =>
      refine hrest revoked x hx (Later.refl x) fun hserial => ?_
      rw [hserial] at hlookup
      exact hverdict revoked hlookup
    | none =>
      refine (later_frame (isRevoked_spec c.certSerial x)).seq hx ?_
      rintro revoked y hy ⟨hev, hxy⟩
      refine hrest revoked y hy hxy fun hserial => ?_
      obtain ⟨ev, hev⟩ := hev hserial
      exact hev.answers hy hfirst

variable (R B s n i first) in
/-- The pass that has begun at `first` leaves no session with the serial behind. -/
def Gone (y : World × Record ι) : Prop :=
  begun i y.2 = some first ∧ first ≤ y.1.1 ∧
    ∀ d, committed s n y.2 = some d → d.time + R.ttl + B.refresh + B.admission ≤ first →
      y.1.1 ≤ n → ∀ id key ref, ¬Serves s (regOf y.1) id key ref

variable (R B s n first) in
/-- The sessions with the serial at `y` are among those that the snapshot has seen, and the
verdicts have made them victims. -/
def Caught (victims : List Victim) (y : World × Record ι) : Prop :=
  ∀ d, committed s n y.2 = some d → d.time + R.ttl + B.refresh + B.admission ≤ first →
    y.1.1 ≤ n → ∀ id key ref, Serves s (regOf y.1) id key ref →
      (⟨id, key, ref, s⟩ : Victim) ∈ victims

omit [DecidableEq ι] in
theorem Caught.later {victims : List Victim} (h : Caught R B s n first victims x)
    (hl : Later R B s n x y) (hfirst : first ≤ x.1.1) : Caught R B s n first victims y := by
  intro d hd hold hn id key ref hs
  have hadmission := B.admission_nonneg
  have hdx := hl.committed_old hd (show d.time + R.ttl + B.refresh ≤ first by omega) hfirst
  have hsx := hl.sessions d hdx (hold.trans hfirst) hn id key ref hs
  exact h d hdx hold (hl.clock.trans hn) id key ref hsx

theorem gone_iff : Gone R B s n i first y ↔
    begun i y.2 = some first ∧ first ≤ y.1.1 ∧ Caught R B s n first [] y := by
  simp [Gone, Caught]

theorem Gone.later (h : Gone R B s n i first x) (hl : Later R B s n x y) :
    Gone R B s n i first y := by
  obtain ⟨hbegun, hfirst, hgone⟩ := gone_iff.mp h
  exact gone_iff.mpr ⟨begun_kept hbegun hl.record, hfirst.trans hl.clock, hgone.later hl hfirst⟩

theorem closeVictims_spec (victims : List Victim) (hbegun : begun i x.2 = some first)
    (hfirst : first ≤ x.1.1) (hcaught : Caught R B s n first victims x) :
    Keeps R B s n i (registry.closeVictims victims).inr (fun _ y => Gone R B s n i first y) x := by
  unfold registry.closeVictims
  split
  · rename_i hnone
    subst hnone
    exact fun y hy _ => (gone_iff.mpr ⟨hbegun, hfirst, hcaught⟩).later hy.later
  · simp only [call_bind, Prog.inr]
    refine op_rule fun t ht _ => ⟨trivial, fun e now u _ _ hguards => ?_⟩
    have hxu : Later R B s n x u := ht.later.trans hguards.later
    refine op_rule fun t₂ ht₂ hst₂ => ⟨trivial, fun e₂ closures v hclose _ hguards₂ => ?_⟩
    have hxt₂ : Later R B s n x t₂ := hxu.trans ht₂.later
    have hxv : Later R B s n x v := hxt₂.trans hguards₂.later
    -- the section under the write lock takes every victim out of its key
    have hgone : Gone R B s n i first v := by
      refine ⟨begun_kept hbegun hxv.record, hfirst.trans hxv.clock,
        fun d hd hold hn id key ref hs => ?_⟩
      have hadmission := B.admission_nonneg
      have hst := hfirst.trans hxt₂.clock
      have hdt := hguards₂.later.committed_old hd
        (show d.time + R.ttl + B.refresh ≤ first by omega) hst
      have hbefore := hguards₂.later.sessions d hdt (hold.trans hst) hn id key ref hs
      have hin := hcaught.later hxt₂ hfirst d hdt hold (hguards₂.later.clock.trans hn) id key ref
        hbefore
      have hafter : regOf v.1 = (Reg.closeVictims R.registry.grace now victims (regOf t₂.1)).2 :=
        (Prod.mk.inj (Option.some.inj (sum_inr (clocked_act (recorded_act hclose).1).2.2).1)).2.symm
      have hocc := hs.1
      rw [hafter] at hocc
      exact registry.closeVictims_gone hin (hst₂.placed.admitted hbefore.1) hocc
    refine only_rule (fun y z hl hy => Gone.later hy hl) ?_ hgone
    refine .inr (Prog.Only.mono (fun o ho y _ => ?_)
      (Prog.Only.bind (only_of_still (P := fun _ => False) (registry.closeSessions_still _))
        fun _ => trivial))
    cases o with
    | attach key sl => exact (ho key sl rfl).elim
    | _ => exact trivial

theorem enforce_spec (hown : own i x.2 = []) : Keeps R B s n i (enforce R)
      (fun _ y => ∃ first, Gone R B s n i first y) x := by
  simp only [enforce, closeRevokedBy, inr_call, call_bind]
  refine op_rule fun t ht _ => ⟨trivial, fun e cs u hsnap hsu hguards => ?_⟩
  have hbegun : begun i u.2 = some u.1.1 := by
    rw [(recorded_act hsnap).2]
    exact begun_first (ht.own.trans hown)
  obtain ⟨hcs, hreg⟩ := Prod.mk.inj
    (Option.some.inj (sum_inr (clocked_act (recorded_act hsnap).1).2.2).1)
  refine (later_frame (judge_spec cs ∅ hsu (le_refl _) ?_)).seq hsu ?_
  · intro b hb
    cases hb
  rintro victims y hy ⟨hjudged, huy⟩
  refine (closeVictims_spec victims (begun_kept hbegun huy.record) huy.clock ?_).mono
    fun _ z _ hz => ⟨_, hz⟩
  intro d hd hold hn id key ref hs
  have hadmission := B.admission_nonneg
  have hdu := huy.committed_old hd (show d.time + R.ttl + B.refresh ≤ u.1.1 by omega) (le_refl _)
  obtain ⟨hocc, sl, hsl, hserial⟩ := huy.sessions d hdu hold hn id key ref hs
  have hcandidate : (⟨id, key, ref, s⟩ : Victim) ∈ cs := by
    rw [← hcs, hreg]
    exact registry.mem_candidates.mpr ⟨hocc, sl, hsl, hserial, (hsu.known d hdu).named⟩
  rcases hjudged d hd (by omega) with hall | hlate
  · exact hall _ hcandidate rfl
  · omega

/-! ## The calls together -/

variable (R B s n i) in
/-- What is known of a call that has ended. -/
def Ends (q : Request) (_ : Reply) (y : World × Record ι) : Prop :=
  q = .enforce → ∃ first, Gone R B s n i first y

theorem store_rule (o : HubOp) (f : HubAns o → Reply) : Keeps R B s n i
      (.op (.inl (.inl o)) fun a => .done (f a)) (fun _ _ => True) x :=
  op_rule fun _ _ _ => ⟨trivial, fun _ _ _ _ _ _ => fun _ _ _ => trivial⟩

theorem program_holds (q : Request) (hx : Sound B s n x) (hown : own i x.2 = []) :
    Keeps R B s n i (q.program R) (Ends R B s n i q) x := by
  cases q with
  | isRevoked serial => exact .map ((isRevoked_spec serial x).mono fun _ _ _ _ h => by cases h)
  | handshake sess proven =>
    exact .map ((handshake_spec sess proven hx hown).mono fun _ _ _ _ h => by cases h)
  | refresh => exact .map ((refresh_spec x).mono fun _ _ _ _ h => by cases h)
  | enforce => exact .map ((enforce_spec hown).mono fun _ _ _ h _ => h)
  | pollFacts key ref sess ticks =>
    exact .map ((quiet_pool (only_of_still
      (registry.pollFacts_still _ _ key ref sess ticks))).mono
      fun _ _ _ _ h => by cases h)
  | closeRevoked serials =>
    exact .map ((quiet_pool (closeRevoked_only serials)).mono fun _ _ _ _ h => by cases h)
  | release | sweep =>
    refine .map ((quiet_pool ?_).mono fun _ _ _ _ h => by cases h)
    exact ⟨attachesOnly_of_ne (by simp), fun _ => ⟨attachesOnly_of_ne (by simp), fun _ => trivial⟩⟩
  | close =>
    refine .map ((quiet_pool ?_).mono fun _ _ _ _ h => by cases h)
    exact ⟨attachesOnly_of_ne (by simp), fun refs =>
      only_of_still (registry.closeSessions_still refs)⟩
  | revokeCert rc =>
    exact (store_rule (.revokeCert rc) Reply.stored).mono fun _ _ _ _ h => by cases h
  | prune order retain =>
    exact (store_rule (.prune order retain) fun _ => .finished).mono fun _ _ _ _ h => by cases h
  | keys op =>
    exact (store_rule (.mutateKeys op) fun _ => .finished).mono fun _ _ _ _ h => by cases h

omit [DecidableEq ι] in
theorem sound_system (R : Replica) (B : Bounds) (s : String) (n : Int) (doc : State)
    {time : Int} (htime : 0 ≤ time) (calls : ι → Request) :
    Sound B s n (system R doc time calls).shared where
  stamped := htime
  epoch := Nat.zero_le _
  past _ h := by cases h
  locked h := absurd rfl h
  placed := registry.placed_empty Unit
  known _ h := by cases h

/-- In every run whose refreshes and admissions keep to their bounds: from one time to live and one
refresh after the commit on, every evaluation says that the serial is revoked, and from one
admission later on, a pass that has ended leaves no session with it, both until `n`. -/
theorem a_revocation_reaches_every_session (R : Replica) (B : Bounds) (s : String) (n : Int)
    (doc : State) (time : Int) (htime : 0 ≤ time) (calls : ι → Request) (ls : List (ι × Env))
    (c : Conf Ans ι (World × Record ι) Reply)
    (hrun : run (machine R).recorded (system R doc time calls) ls = some c)
    (htimely : Meets (machine R).recorded (fun i o e x => timely B s n i o e x = true)
      (system R doc time calls) ls) :
    (∀ i ls' c' commit b first rest,
      run (machine R).recorded (evaluating R s i c) ls' = some c' →
      Meets (machine R).recorded (fun i o e x => timely B s n i o e x = true)
        (evaluating R s i c) ls' →
      c'.thread i = .done (.verdict b) →
      committed s n c'.shared.2 = some commit →
      own i c'.shared.2 = own i c.shared.2 ++ first :: rest →
      commit.time + R.ttl + B.refresh ≤ first.after.1 →
      (∀ ev ∈ first :: rest, ev.after.1 ≤ n) → b = true) ∧
    (∀ i reply commit first,
      calls i = .enforce → c.thread i = .done reply →
      committed s n c.shared.2 = some commit → begun i c.shared.2 = some first →
      commit.time + R.ttl + B.refresh + B.admission ≤ first → c.shared.1.1 ≤ n →
      ∀ id key ref, ¬Serves s (regOf c.shared.1) id key ref) := by
  have hinv : (pact ι R B s n).inv (system R doc time calls).shared :=
    sound_system R B s n doc htime calls
  have hall : ∀ j, Holds (machine R).recorded (pact ι R B s n) j
      ((system R doc time calls).thread j) (Ends R B s n j (calls j))
      (system R doc time calls).shared :=
    fun j => program_holds (calls j) hinv rfl
  constructor
  · intro i ls' c' commit b first rest hrun' htimely' hdone hcommit hown hold hby
    obtain ⟨hsound, hthreads⟩ := run_holds hinv hall htimely hrun
    -- the evaluation in the place of whatever the call does
    have hall' : ∀ j, Holds (machine R).recorded (pact ι R B s n) j
        ((evaluating R s i c).thread j)
        (fun reply y => j = i → ∀ b, reply = .verdict b → ∃ ev, Evaluated R B s n i c.shared b y ev)
        (evaluating R s i c).shared := by
      intro j
      by_cases hj : j = i
      · subst hj
        have hthread : (evaluating R s j c).thread j = (Request.isRevoked s).program R :=
          Function.update_self _ _ _
        rw [hthread]
        refine .map ((isRevoked_spec s c.shared).mono fun b y _ hy _ b' hb' => ?_)
        cases hb'
        exact hy rfl
      · have hthread : (evaluating R s i c).thread j = c.thread j := Function.update_of_ne hj _ _
        rw [hthread]
        exact (hthreads j).mono fun _ _ _ _ hji => absurd hji hj
    have hsound' : (pact ι R B s n).inv (evaluating R s i c).shared := hsound
    obtain ⟨ev, hev⟩ := done_of_run hsound' hall' htimely' hrun' hdone rfl b rfl
    obtain ⟨rest', hrest'⟩ := hev.begun
    rw [hown, append_assoc] at hrest'
    obtain ⟨rfl, _⟩ := List.cons.inj (append_cancel_left hrest')
    rcases hev.told commit hcommit hold with htrue | ⟨late, hlate, _, hn⟩
    · exact htrue
    -- a step before the evaluation is not later than its first one
    rw [hown] at hlate
    rcases mem_append.mp hlate with hbefore | hlate
    · have hpast := hsound.past _ (mem_of_own hbefore)
      have hbegins := hev.begins
      have hfirst := hby ev mem_cons_self
      have hpast : late.after.1 ≤ c.shared.1.1 := hpast
      omega
    · have hle := hby late hlate
      omega
  · intro i reply commit first hcall hdone hcommit hbegun hold hn id key ref
    obtain ⟨first', hbegun', _, hgone⟩ := done_of_run hinv hall htimely hrun hdone hcall
    rw [hbegun] at hbegun'
    cases hbegun'
    exact hgone commit hcommit hold hn id key ref

/-! ## Two runs -/

theorem thirty_pos : (0 : Int) < 30 := by decide

/-- A replica that trusts a refresh for thirty nanoseconds. -/
def thirty : Replica := ⟨registry.bareConfig, 30, thirty_pos⟩

theorem two_nonneg : (0 : Int) ≤ 2 := by decide

/-- No refresh and no admission takes longer than two nanoseconds. -/
def promptly : Bounds := ⟨2, 2, two_nonneg, two_nonneg⟩

/-- A pod connects, its certificate is revoked until the time 100, and a pass runs. -/
def eviction : Fin 4 → Request
  | 0 => .handshake (registry.podWith "0a" "pod") true
  | 1 => .revokeCert { serial := "0a", revokedAt := 10, notAfter := 100, reason := "lost" }
  | 2 => .enforce
  | 3 => .isRevoked "0a"

def atTime (now : Int) (i : Fin 4) (steps : Nat) : List (Fin 4 × Env) :=
  List.replicate steps
    (i, { now := now, visits := ascending, spokes := registry.answering now 1 })

/-- The pod connects at 5 and is revoked at 10, and the pass runs at 50. -/
def evictionRun : List (Fin 4 × Env) := atTime 5 0 7 ++ atTime 10 1 1 ++ atTime 50 2 16

theorem a_revocation_reaches_the_session_of_a_pod :
    ∃ c, run (machine thirty).recorded (system thirty newState 0 eviction) evictionRun = some c ∧
      c.thread 0 = .done (.handshake (.onSession (.ok 0))) ∧
      c.thread 2 = .done (.enforced ["east"]) ∧
      ∀ id key ref, ¬Serves "0a" (regOf c.shared.1) id key ref := by
  refine ⟨_, rfl, rfl, rfl, ?_⟩
  have hreach := a_revocation_reaches_every_session thirty promptly "0a" 100 newState 0
    (by decide) eviction evictionRun _ rfl (by decide +kernel)
  exact hreach.2 2 _ ⟨10, 1⟩ 50 rfl rfl rfl rfl (by decide) (by decide)

/-- The evaluation begins at 99, long after the commit and before the end of the entry, but its
refresh reads the clock at 101 and drops the entry. -/
theorem an_evaluation_that_begins_in_time_may_say_no : ∃ c c' first rest,
      run (machine thirty).recorded (system thirty newState 0 eviction) (atTime 10 1 1) = some c ∧
      Meets (machine thirty).recorded (fun i o e x => timely promptly "0a" 100 i o e x = true)
        (system thirty newState 0 eviction) (atTime 10 1 1) ∧
      run (machine thirty).recorded (evaluating thirty "0a" 3 c)
        (atTime 99 3 8 ++ atTime 101 3 4) = some c' ∧
      Meets (machine thirty).recorded (fun i o e x => timely promptly "0a" 100 i o e x = true)
        (evaluating thirty "0a" 3 c) (atTime 99 3 8 ++ atTime 101 3 4) ∧
      committed "0a" 100 c'.shared.2 = some ⟨10, 1⟩ ∧
      own 3 c'.shared.2 = own 3 c.shared.2 ++ first :: rest ∧
      10 + thirty.ttl + promptly.refresh ≤ first.after.1 ∧ first.after.1 < 100 ∧
      c'.thread 3 = .done (.verdict false) := by
  refine ⟨_, _, _, _, rfl, by decide +kernel, rfl, ?_, rfl, rfl, by decide, by decide, rfl⟩
  decide +kernel

end prom_fleet.enforcer
