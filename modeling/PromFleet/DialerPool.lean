-- The pool of dial loops of one endpoint: the supervisor starts loops until there are as many
-- as coverage wants, and a loop that finds the pool too large retires.
import PromFleet.Coverage
import PromFleet.Traces

namespace prom_fleet.coverage

open traces List

/-- `coverage.dialers`. `discover` never changes, so its two critical sections read one state. -/
def Coverage.dialers (c : Coverage) : Int :=
  if !c.discover then 1 else if c.want < 1 then 2 else c.want + 1

/-- Where a dial loop is: in `dialOnce` before and after `join`, after a redundant ending, after
it has read `active`, or behind its decision to return. -/
inductive Loop where
  | dialing
  | connected (serverID : String) (duplicate : Bool)
  | redundant
  | loaded (active : Nat)
  | retiring
  deriving DecidableEq

/-- Where `superviseEndpoint` is: asleep, before a read of `active`, or before a new loop. -/
inductive Supervisor where
  | asleep
  | loading (want : Int)
  | adding (want : Int)

/-- A loop is in `loops` from the `active.Add(1)` that announces it to its deferred
`active.Add(-1)`, so the value of `active` is the length of the list. -/
structure Pool where
  cov : Coverage
  supervisor : Supervisor
  loops : List Loop

/-- What a loop does next, where `hub` is the hub that answers a dial. -/
def Loop.next (cov : Coverage) (active : Nat) (hub : HubInfo) : Loop → Coverage × Option Loop
  | .dialing =>
    let (duplicate, cov) := cov.join hub.serverID hub.replicas
    (cov, some (.connected hub.serverID duplicate))
  -- The deferred leave is skipped for a hub that gave no server ID.
  | .connected id duplicate =>
    (if id = "" then cov else cov.leave id, some (if duplicate then .redundant else .dialing))
  | .redundant => (cov, some (.loaded active))
  | .loaded n => (cov, some (if cov.dialers < n then .retiring else .dialing))
  | .retiring => (cov, none)

inductive PoolEvent where
  | supervise
  | loop (i : Nat) (hub : HubInfo)

def Pool.step (p : Pool) : PoolEvent → Option Pool
  | .supervise =>
    match p.supervisor with
    | .asleep => some { p with supervisor := .loading p.cov.dialers }
    | .loading want =>
      some { p with supervisor := if (p.loops.length : Int) < want then .adding want else .asleep }
    | .adding want => some { p with supervisor := .loading want, loops := p.loops ++ [.dialing] }
  | .loop i hub =>
    p.loops[i]?.map fun x =>
      let (cov, y) := x.next p.cov p.loops.length hub
      { p with cov := cov, loops := p.loops.take i ++ y.toList ++ p.loops.drop (i + 1) }

/-- A new pool of an endpoint in discovery mode. -/
def newPool : Pool := ⟨newCoverage true, .asleep, []⟩

/-- The loop has read `active` and has not gone on since. -/
def Loop.leaving : Loop → Bool
  | .loaded _ | .retiring => true
  | _ => false

/-- No loop reads `active` while another one may still retire on an earlier reading. -/
def InTurn (p : Pool) : PoolEvent → Prop
  | .supervise => True
  | .loop i _ => p.loops[i]? = some .redundant → p.loops.countP Loop.leaving = 0

/-- The event leaves the advertised replica count as it is. -/
def SameCount (p : Pool) (e : PoolEvent) : Prop :=
  (p.step e).all (fun q => q.cov.want = p.cov.want) = true

instance (p : Pool) : DecidablePred (SameCount p) := fun _ => instDecidableEqBool _ _

instance (p : Pool) : DecidablePred (InTurn p)
  | .supervise => inferInstanceAs (Decidable True)
  | .loop i _ => inferInstanceAs (Decidable (p.loops[i]? = _ → _))

variable {p q : Pool} {e : PoolEvent} {cov : Coverage} {x : Loop} {n : Nat} {hub : HubInfo}

theorem step_cases (h : p.step e = some q) :
    (q.cov = p.cov ∧ (q.loops = p.loops ∨ q.loops = p.loops ++ [.dialing])) ∨
      ∃ i hub pre x post, e = .loop i hub ∧ p.loops[i]? = some x ∧ p.loops = pre ++ x :: post ∧
        q.cov = (x.next p.cov p.loops.length hub).1 ∧
        q.loops = pre ++ (x.next p.cov p.loops.length hub).2.toList ++ post := by
  cases e with
  | supervise =>
    left
    simp only [Pool.step] at h
    split at h
    all_goals cases h; simp
  | loop i hub =>
    right
    obtain ⟨x, hx, rfl⟩ := Option.map_eq_some_iff.mp h
    obtain ⟨hi, rfl⟩ := List.getElem?_eq_some_iff.mp hx
    refine ⟨i, hub, p.loops.take i, p.loops[i], p.loops.drop (i + 1), rfl, hx, ?_, rfl, rfl⟩
    rw [← drop_eq_getElem_cons hi, take_append_drop]

theorem Coverage.discover_join (id : String) (replicas : Int) :
    (cov.join id replicas).2.discover = cov.discover := by
  simp only [Coverage.join, Coverage.learn]
  repeat' split
  all_goals rfl

theorem discover_next : (x.next cov n hub).1.discover = cov.discover := by
  cases x with
  | dialing => exact Coverage.discover_join hub.serverID hub.replicas
  | connected id duplicate =>
    simp only [Loop.next, Coverage.leave]
    repeat' split
    all_goals rfl
  | redundant | loaded | retiring => rfl

theorem discover_step (h : p.step e = some q) : q.cov.discover = p.cov.discover := by
  obtain ⟨hcov, _⟩ | ⟨i, hub, pre, x, post, _, _, _, hcov, _⟩ := step_cases h
  · rw [hcov]
  · rw [hcov, discover_next]

/-- At most one of the loops is behind its reading of `active`, the reading is not too high,
and `w` loops stay when those that have decided to return are gone. -/
structure Orderly (w : Int) (l : List Loop) : Prop where
  one : l.countP Loop.leaving ≤ 1
  fresh : ∀ n, .loaded n ∈ l → n ≤ l.length
  room : w + l.countP (· = .retiring) ≤ l.length

variable {w : Int} {l pre post : List Loop} {y : Loop}

theorem retiring_le : l.countP (· = .retiring) ≤ l.countP Loop.leaving := by
  refine countP_mono_left fun x _ hx => ?_
  rw [of_decide_eq_true hx]
  rfl

theorem leaving_pos (h : .loaded n ∈ l) : 0 < l.countP Loop.leaving :=
  countP_pos_iff.mpr ⟨_, h, rfl⟩

/-- One move of a loop. A loop retires on a reading that is not too high, and then it is the
only one that is on its way out. -/
theorem Orderly.next (h : Orderly w (pre ++ x :: post)) (hw : w ≤ cov.dialers)
    (hturn : x = .redundant → (pre ++ x :: post).countP Loop.leaving = 0) :
    Orderly w (pre ++ (x.next cov (pre ++ x :: post).length hub).2.toList ++ post) := by
  obtain ⟨hone, hfresh, hroom⟩ := h
  have hpre := retiring_le (l := pre)
  have hpost := retiring_le (l := post)
  have hloaded := fun n => leaving_pos (n := n) (l := pre)
  have hloaded' := fun n => leaving_pos (n := n) (l := post)
  have hx := fun n (hx : x = .loaded n) => hfresh n (by simp [hx])
  simp only [countP_append, countP_cons, length_append, length_cons,
    mem_append, mem_cons, decide_eq_true_eq] at hone hfresh hroom hturn hx ⊢
  refine ⟨?one, ?fresh, ?room⟩
  all_goals
    cases x
    all_goals
      simp only [Loop.next, Option.toList, countP_append, countP_cons, countP_nil,
        length_append, length_cons, length_nil, mem_append, mem_cons,
        Loop.leaving, decide_eq_true_eq] at *
      grind [Loop.leaving]

theorem Orderly.step (h : Orderly w p.loops) (hw : w ≤ p.cov.dialers) (hturn : InTurn p e)
    (hs : p.step e = some q) : Orderly w q.loops := by
  obtain ⟨_, hl | hl⟩ | ⟨i, hub, pre, x, post, rfl, hx, hp, _, hl⟩ := step_cases hs
  · exact hl ▸ h
  · rw [hl]
    refine ⟨?_, fun n hn => ?_, ?_⟩
    · simpa [Loop.leaving] using h.one
    · exact (h.fresh n (by simpa using hn)).trans (by simp)
    have := h.room
    simp only [countP_append, length_append, length_singleton]
    rw [show [Loop.dialing].countP (· = .retiring) = 0 from rfl]
    omega
  · rw [InTurn, hx] at hturn
    rw [hp] at h hturn hl
    rw [hl]
    exact h.next hw fun hr => hturn (congrArg some hr)

theorem dialers_step (hsame : SameCount p e) (h : p.step e = some q) :
    q.cov.dialers = p.cov.dialers := by
  have hwant : q.cov.want = p.cov.want := by simpa [SameCount, h] using hsame
  unfold Coverage.dialers
  rw [discover_step h, hwant]

/-- Once there are as many loops as coverage wants, and none of them has decided to return,
there are as many until the advertised count changes, as long as the loops take their turns. -/
theorem the_pool_keeps_its_dialers (before during : List PoolEvent) (p q : Pool)
    (hstart : run Pool.step newPool before = some p) (hturn : Meets Pool.step InTurn newPool before)
    (hreached : p.cov.dialers ≤ p.loops.length) (hstay : .retiring ∉ p.loops)
    (hrun : run Pool.step p during = some q)
    (hmeets : Meets Pool.step (fun s e => InTurn s e ∧ SameCount s e) p during) :
    q.cov.dialers ≤ q.loops.length := by
  -- nothing is asked of the number of loops before the period begins
  have hpast : Orderly 0 p.loops := by
    have hnew : Orderly 0 newPool.loops := ⟨by decide, by simp [newPool], by decide⟩
    refine run_keeps_if (I := fun s => Orderly 0 s.loops)
      (fun s e t hC hI hs => hI.step ?_ hC hs) hnew hturn hstart
    unfold Coverage.dialers
    repeat' split
    all_goals omega
  have hroom : Orderly p.cov.dialers p.loops := by
    refine ⟨hpast.one, hpast.fresh, ?_⟩
    rw [countP_eq_zero.mpr fun x hx => by simpa using ne_of_mem_of_not_mem hx hstay]
    simpa using hreached
  obtain ⟨hend, hsame⟩ := run_keeps_if
    (I := fun s => Orderly p.cov.dialers s.loops ∧ s.cov.dialers = p.cov.dialers)
    (fun s e t hC hI hs =>
      ⟨hI.1.step hI.2.ge hC.1 hs, (dialers_step hC.2 hs).trans hI.2⟩)
    ⟨hroom, rfl⟩ hmeets hrun
  have := hend.room
  omega

/-- The supervisor has started two loops, before any hub has told its count. -/
def twoLoops : List PoolEvent := List.replicate 6 .supervise

/-- The first loop holds a tunnel, and the second one finds the same replica and stays. -/
theorem a_probe_stays_in_the_pool : ∃ p q, run Pool.step newPool twoLoops = some p ∧
      run Pool.step p (.loop 0 ⟨"a", 0⟩ :: List.replicate 4 (.loop 1 ⟨"a", 0⟩)) = some q ∧
      q.cov.dialers ≤ q.loops.length :=
  ⟨_, _, rfl, rfl, the_pool_keeps_its_dialers twoLoops
    (.loop 0 ⟨"a", 0⟩ :: List.replicate 4 (.loop 1 ⟨"a", 0⟩)) _ _ rfl (by decide) (by decide)
    (by decide) rfl (by decide)⟩

/-- Three loops, of which two have found the replica of the first one, when the hub has told
that it has one replica now. -/
def scaledDown : List PoolEvent :=
  List.replicate 3 .supervise ++ [.loop 0 ⟨"a", 2⟩] ++ List.replicate 7 .supervise ++
    [.loop 1 ⟨"a", 1⟩, .loop 2 ⟨"a", 1⟩]

/-- Two loops read the same surplus, and both retire. -/
theorem two_loops_retire_at_once :
    ∃ p q, run Pool.step newPool scaledDown = some p ∧ p.cov.dialers ≤ p.loops.length ∧
      (∀ x ∈ p.loops, x.leaving = false) ∧
      let during := [1, 2, 1, 2, 1, 2, 1, 1].map (.loop · ⟨"a", 1⟩)
      Meets Pool.step SameCount p during ∧ run Pool.step p during = some q ∧
      q.loops.length < q.cov.dialers :=
  ⟨_, _, rfl, by decide, by decide, by decide, rfl, by decide⟩

end prom_fleet.coverage
