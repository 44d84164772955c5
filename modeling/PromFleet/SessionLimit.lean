-- The session limit of the tunnel endpoint: a handler takes its slot by a compare-and-swap
-- loop before it accepts its peer, and gives it back when it returns.
import PromFleet.Traces

namespace prom_fleet.wstun

open traces List

/-- Where a handler is: before the upgrade, in `authenticate`, before the load and the swap of
`reserveSession`, before and after the accept message, and before its deferred decrement. -/
inductive Handler where
  | arrived
  | authenticating
  | loading
  | loaded (n : Int)
  | reserved
  | serving
  | leaving
  | returned

/-- The handler is between a successful `reserveSession` and its return. -/
def Handler.holds : Handler → Bool
  | .reserved | .serving | .leaving => true
  | _ => false

/-- The counter, the handlers, and which of them has sent which `Accepted`. -/
structure Server where
  sessions : Int
  handlers : List Handler
  sent : List (Nat × Bool)

def atSessionLimit (maxSessions sessions : Int) : Bool := 0 < maxSessions && maxSessions ≤ sessions

/-- What a handler does next: the counter after it, where it is then, and the `Accepted` that it
sends. What it depends on (the upgrade, the peer, the listener) goes well if `ok`. -/
def Handler.next (maxSessions sessions : Int) (ok : Bool) : Handler → Int × Handler × Option Bool
  | .arrived =>
    (sessions, if atSessionLimit maxSessions sessions || !ok then .returned else .authenticating,
      none)
  | .authenticating =>
    if ok then (sessions, .loading, none) else (sessions, .returned, some false)
  | .loading =>
    if maxSessions ≤ 0 then (sessions + 1, .reserved, none)
    else if maxSessions ≤ sessions then (sessions, .returned, some false)
    else (sessions, .loaded sessions, none)
  | .loaded n => if sessions = n then (n + 1, .reserved, none) else (sessions, .loading, none)
  | .reserved => (sessions, if ok then .serving else .leaving, some true)
  | .serving => (sessions, .leaving, none)
  | .leaving => (sessions - 1, .returned, none)
  | .returned => (sessions, .returned, none)

inductive ServerEvent where
  | arrive
  | move (i : Nat) (ok : Bool)

def Server.step (maxSessions : Int) (s : Server) : ServerEvent → Option Server
  | .arrive => some { s with handlers := s.handlers ++ [.arrived] }
  | .move i ok =>
    s.handlers[i]?.map fun x =>
      let (sessions, y, message) := x.next maxSessions s.sessions ok
      ⟨sessions, s.handlers.set i y, s.sent ++ (message.map (i, ·)).toList⟩

def newServer : Server := ⟨0, [], []⟩

/-- Handler `i` has a reservation. -/
def Server.Reserved (s : Server) (i : Nat) : Prop :=
  ∃ x, s.handlers[i]? = some x ∧ x.holds = true

/-- The counter counts the reservations, and a swap that goes through stays within the limit. -/
structure Counted (maxSessions : Int) (s : Server) : Prop where
  count : s.sessions = s.handlers.countP Handler.holds
  limit : s.sessions ≤ maxSessions
  loaded : ∀ n, .loaded n ∈ s.handlers → n < maxSessions

variable {maxSessions n : Int} {ok : Bool} {x : Handler} {s t : Server} {e : ServerEvent}

/-- A move changes the counter by what it changes of the reservation, and a handler sends
`Accepted` only while it has one. -/
theorem next_spec (hmax : 0 < maxSessions) (hx : ∀ k, x = .loaded k → k < maxSessions)
    (hn : n ≤ maxSessions) :
    let r := x.next maxSessions n ok
    r.1 + (if x.holds then 1 else 0) = n + (if r.2.1.holds then 1 else 0) ∧ r.1 ≤ maxSessions ∧
      (∀ k, r.2.1 = .loaded k → k < maxSessions) ∧
      (r.2.2 = some true → x.holds = true ∧ r.2.1.holds = true) := by
  cases x with
  | loaded k =>
    have hk := hx k rfl
    grind [Handler.next, Handler.holds]
  | _ => grind [Handler.next, Handler.holds]

theorem Counted.step (hmax : 0 < maxSessions) (h : Counted maxSessions s)
    (hs : s.step maxSessions e = some t) :
    Counted maxSessions t ∧ ∀ i, t.sent = s.sent ++ [(i, true)] → s.Reserved i ∧ t.Reserved i := by
  cases e with
  | arrive =>
    cases hs
    refine ⟨⟨?_, h.limit, fun n hn => h.loaded n (by simpa using hn)⟩, fun i hi => by simp at hi⟩
    rw [countP_append]
    exact h.count
  | move i ok =>
    obtain ⟨x, hx, rfl⟩ := Option.map_eq_some_iff.mp hs
    obtain ⟨hi, hxi⟩ := List.getElem?_eq_some_iff.mp hx
    obtain ⟨hcount, hlimit, hloaded, hsent⟩ := next_spec hmax
      (fun k hk => h.loaded k (hk ▸ hxi ▸ getElem_mem hi)) h.limit
    refine ⟨⟨?_, hlimit, fun k hk => ?_⟩, fun j hj => ?_⟩
    · have hpos : x.holds = true → 0 < s.handlers.countP Handler.holds :=
        fun hh => countP_pos_iff.mpr ⟨x, hxi ▸ getElem_mem hi, hh⟩
      have hbefore := h.count
      rw [countP_set hi, hxi]
      cases hx' : x.holds <;> cases hy : (x.next maxSessions s.sessions ok).2.1.holds
      all_goals
        simp only [hx', hy, Bool.false_eq_true, if_true, if_false, forall_const] at hcount hpos ⊢
        omega
    · rcases mem_or_eq_of_mem_set hk with hk | hk
      · exact h.loaded k hk
      · exact hloaded k hk.symm
    · obtain ⟨message, hmessage, hij⟩ : ∃ m, (x.next maxSessions s.sessions ok).2.2 = some m ∧
          (i, m) = (j, true) := by
        simpa [Option.toList_eq_singleton_iff] using hj
      cases hij
      exact ⟨⟨x, hx, (hsent hmessage).1⟩, _, List.getElem?_set_self hi, (hsent hmessage).2⟩

/-- In every run of any number of handlers, the counter is the number of reservations, it stays
within the limit, and a peer is accepted only by a handler that has a reservation. -/
theorem the_session_limit_holds (maxSessions : Int) (hmax : 0 < maxSessions)
    (es : List ServerEvent) (s : Server)
    (hrun : run (Server.step maxSessions) newServer es = some s) :
    s.sessions = s.handlers.countP Handler.holds ∧ s.sessions ≤ maxSessions ∧
      ∀ e t i, s.step maxSessions e = some t → t.sent = s.sent ++ [(i, true)] →
        s.Reserved i ∧ t.Reserved i := by
  have hnew : Counted maxSessions newServer := ⟨rfl, Int.le_of_lt hmax, fun n hn => by cases hn⟩
  have h : Counted maxSessions s := run_keeps (fun s e t hI hs => (hI.step hmax hs).1) hnew hrun
  exact ⟨h.count, h.limit, fun e t i hs => (h.step hmax hs).2 i⟩

/-- Two handlers load the same counter under a limit of one session. The first swap goes
through, and the second handler finds the hub full. -/
def twoHandlers : List ServerEvent :=
  [.arrive, .arrive, .move 0 true, .move 1 true, .move 0 true, .move 1 true, .move 0 true,
    .move 1 true, .move 0 true, .move 1 true, .move 1 true]

theorem the_session_limit_holds_for_two_handlers :
    ∃ s, run (Server.step 1) newServer twoHandlers = some s ∧ s.sent = [(1, false)] ∧
      s.sessions = s.handlers.countP Handler.holds ∧ s.sessions ≤ 1 :=
  have h := the_session_limit_holds 1 (by decide) twoHandlers _ rfl
  ⟨_, rfl, rfl, h.1, h.2.1⟩

end prom_fleet.wstun
