-- The revoked serials that a hub process keeps for its tunnel handshakes. A refresh reads the
-- epoch and, if that has moved, the list, in two reads of the store. These are programs of
-- another machine here.
import PromFleet.Compose
import PromFleet.EpochLaws

namespace prom_fleet.hub

open interleave store map_range List Function

/-! ## The cache -/

/-- `hub.revocationCache`, with its refresh mutex as `locked`. `installedAt` is no
field of the source: it is the time of the refresh that installed the set. -/
structure RevocationCache where
  serials : List String
  epoch : Nat
  fetched : Int
  locked : Bool
  installedAt : Option Int

def RevocationCache.new : RevocationCache :=
  { serials := [], epoch := 0, fetched := 0, locked := false, installedAt := none }

/-- The atomic operations on the cache of process `r`: a reading of the clock and
the critical sections of the two mutexes. -/
inductive CacheOp (ρ : Type) where
  | time
  | lock (r : ρ)
  | unlock (r : ρ)
  | peek (r : ρ)
  | touch (r : ρ) (now : Int)
  | install (r : ρ) (serials : List String) (epoch : Nat) (now : Int)

abbrev CacheAns {ρ : Type} : CacheOp ρ → Type
  | .time => Int
  | .peek _ => RevocationCache
  | _ => Unit

variable {ρ ι ε φ : Type}

/-- What each operation does. The refresh mutex makes a second refresh wait. -/
def cacheAct [DecidableEq ρ] (now : ε → Int) :
    (o : CacheOp ρ) → ε → (ρ → RevocationCache) → Option (CacheAns o × (ρ → RevocationCache))
  | .time, e, c => some (now e, c)
  | .lock r, _, c =>
    if (c r).locked then none else some ((), update c r { c r with locked := true })
  | .unlock r, _, c => some ((), update c r { c r with locked := false })
  | .peek r, _, c => some (c r, c)
  | .touch r t, _, c => some ((), update c r { c r with fetched := t })
  | .install r serials epoch t, _, c =>
    some ((), update c r
      { c r with serials := serials, epoch := epoch, fetched := t, installedAt := some t })

def cacheMachine [DecidableEq ρ] (now : ε → Int) :
    Machine (@CacheAns ρ) ι ε (ρ → RevocationCache) where
  act _ o e c := cacheAct now o e c

/-! ## Refreshing -/

/-- The serials that a refresh at `now` takes from the list. An entry whose
certificate has expired is moot. -/
def liveSerials (now : Int) (entries : List RevokedCert) : List String :=
  (entries.filter fun e => !(!isZero e.notAfter && decide (e.notAfter < now))).map (·.serial)

theorem mem_liveSerials {now : Int} {entries : List RevokedCert} {serial : String} :
    serial ∈ liveSerials now entries ↔
      ∃ e ∈ entries, certLive now e = true ∧ e.serial = serial := by
  have hlive : ∀ e : RevokedCert,
      (!(!isZero e.notAfter && decide (e.notAfter < now))) = certLive now e := by
    intro e
    rw [Bool.eq_iff_iff]
    simp [certLive, isZero, or_iff_not_imp_left]
  simp only [liveSerials, mem_map, mem_filter, hlive, and_assoc]

variable {rc : RevokedCert}

theorem mem_listRevokedCerts {r : Range String RevokedCert} {s : State} :
    rc ∈ listRevokedCerts r s ↔ ∃ serial, s.revokedCerts.lookup serial = some rc := by
  simp only [listRevokedCerts, mem_insertionSort, mem_map]
  constructor
  · rintro ⟨⟨serial, rc'⟩, h, rfl⟩
    exact ⟨serial, (r.mem_list _).mp h⟩
  · rintro ⟨serial, h⟩
    exact ⟨⟨serial, rc⟩, (r.mem_list _).mpr h, rfl⟩

/-! ## What a document says about a serial -/

/-- The list has an entry for the serial that counts at `last`. -/
def Recorded (serial : String) (last : Int) (s : State) : Prop :=
  ∃ rc, s.revokedCerts.lookup serial = some rc ∧ rc.serial = serial ∧ certLive last rc = true

theorem certLive_iff {last : Int} :
    certLive last rc = true ↔ rc.notAfter = 0 ∨ last ≤ rc.notAfter := by
  simp [certLive, isZero]

section Recorded

variable {serial : String} {last : Int} {s s' : State}

theorem Recorded.congr (h : Recorded serial last s)
    (hs : s'.revokedCerts.lookup serial = s.revokedCerts.lookup serial) :
    Recorded serial last s' := by
  obtain ⟨rc, hrc, hrest⟩ := h
  exact ⟨rc, hs.trans hrc, hrest⟩

/-- A revocation that is to last long enough records its serial, and it leaves the
others alone. -/
theorem recorded_setCert (now : Int) (hlong : serial = rc.serial → certLive last rc = true)
    (hold : serial ≠ rc.serial → Recorded serial last s) : Recorded serial last
      (bump (setCert rc.serial { rc with revokedAt := whenOf rc.revokedAt now } s)) := by
  by_cases hserial : serial = rc.serial
  · refine ⟨{ rc with revokedAt := whenOf rc.revokedAt now }, ?_, hserial.symm, hlong hserial⟩
    rw [hserial]
    exact Finmap.lookup_insert _
  · exact (hold hserial).congr (Finmap.lookup_insert_of_ne _ hserial)

variable {now : Int}

/-- A prune pass drops an entry only after the entry has not counted for as long as
the pass retains. -/
theorem recorded_prune {o : PruneOrder} {retain : Int} {a : Applied PruneResult}
    (h : store.prune o now retain s = .ok a) (hr : Recorded serial last s) :
    Recorded serial last a.state ∨ last + retain < now := by
  obtain ⟨_, _, _, hcerts⟩ := prune_cases h
  obtain ⟨rc, hrc, hserial, hlong⟩ := hr
  by_cases hl : certLapsed now retain rc = true
  · simp only [certLapsed, Bool.and_eq_true, Bool.not_eq_true', decide_eq_true_eq] at hl
    have hzero : rc.notAfter ≠ 0 := by simpa [isZero] using hl.1
    have hle := (certLive_iff.mp hlong).resolve_left hzero
    exact .inr (by omega)
  · refine .inl ⟨rc, ?_, hserial, hlong⟩
    rw [hcerts, hrc]
    simp [Option.filter, hl]

theorem Recorded.listed (h : Recorded serial last s) (order : Range String RevokedCert) :
    ∃ rc ∈ listRevokedCerts order s, rc.serial = serial ∧ certLive last rc = true := by
  obtain ⟨rc, hrc, hrest⟩ := h
  exact ⟨rc, mem_listRevokedCerts.mpr ⟨_, hrc⟩, hrest⟩

/-- A refresh takes an entry from the list as long as it counts. -/
theorem Recorded.mem_liveSerials (h : Recorded serial last s) (order : Range String RevokedCert)
    (hnow : now ≤ last) : serial ∈ liveSerials now (listRevokedCerts order s) := by
  obtain ⟨rc, hrc, hserial, hlive⟩ := h.listed order
  refine hub.mem_liveSerials.mpr ⟨rc, hrc, certLive_iff.mpr ?_, hserial⟩
  exact (certLive_iff.mp hlive).imp_right hnow.trans

end Recorded

/-! ## The calls -/

/-- What a refresh did. The source returns nil in each case. -/
inductive Refreshed where
  | fresh
  | unchanged
  | relisted (serials : List String) (now : Int)

section Refresh

variable {Op : Type} {Ans : Op → Type}

/-- The programs that use the store and the cache. -/
abbrev CacheCall (ρ : Type) (Ans : Op → Type) (α : Type) := Prog (Either Ans (@CacheAns ρ)) α

abbrev time : CacheCall ρ Ans Int := (Prog.call (CacheOp.time : CacheOp ρ)).inr
variable (r : ρ)

abbrev lock : CacheCall ρ Ans Unit := (Prog.call (CacheOp.lock r)).inr
abbrev unlock : CacheCall ρ Ans Unit := (Prog.call (CacheOp.unlock r)).inr
abbrev peek : CacheCall ρ Ans RevocationCache := (Prog.call (CacheOp.peek r)).inr
abbrev touch (now : Int) : CacheCall ρ Ans Unit := (Prog.call (CacheOp.touch r now)).inr
abbrev install (serials : List String) (epoch : Nat) (now : Int) :
    CacheCall ρ Ans Unit := (Prog.call (CacheOp.install r serials epoch now)).inr

/-- A process that keeps such a cache, with the two reads of its store. -/
structure Keeper (ρ : Type) (Ans : Op → Type) (φ : Type) where
  self : ρ
  ttl : Int
  readEpoch : Prog Ans (Except φ Nat)
  readList : Prog Ans (Except φ (List RevokedCert))

variable (k : Keeper ρ Ans φ)

/-- The part of `refresh` that puts a new list into the cache. -/
def relist (epoch : Nat) : CacheCall ρ Ans (Except φ Refreshed) := do
  match ← k.readList.inl with
  | .error e => return .error e
  | .ok entries =>
    let now ← time
    install k.self (liveSerials now entries) epoch now
    return .ok (.relisted (liveSerials now entries) now)

/-- The part of `refresh` behind the refresh mutex. -/
def refreshLocked : CacheCall ρ Ans (Except φ Refreshed) := do
  let c ← peek k.self
  let now ← time
  if now - c.fetched < k.ttl then return .ok .fresh
  else
    match ← k.readEpoch.inl with
    | .error e => return .error e
    | .ok epoch =>
      let c ← peek k.self
      if epoch = c.epoch ∧ isZero c.fetched = false then
        let now ← time
        touch k.self now
        return .ok .unchanged
      else relist k epoch

def refresh : CacheCall ρ Ans (Except φ Refreshed) := do
  lock k.self
  let x ← refreshLocked k
  unlock k.self
  return x

/-- `revocationCache.isRevoked`. A refresh that fails leaves the old answer. -/
def isRevoked (serial : String) : CacheCall ρ Ans Bool := do
  let c ← peek k.self
  let now ← time
  if c.serials.contains serial || decide (now - c.fetched < k.ttl) then
    return c.serials.contains serial
  else
    match ← refresh k with
    | .error _ => return c.serials.contains serial
    | .ok _ =>
      let c' ← peek k.self
      return c'.serials.contains serial

end Refresh

end prom_fleet.hub
