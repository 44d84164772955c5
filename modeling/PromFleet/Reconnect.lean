-- How a renewed certificate reaches the tunnels of a spoke. A renewal stores the identity and
-- then closes the channel that the dialers hold. A dialer takes the channel first and reads the
-- identity after that. Any number of renewals and of dials run at once.
import PromFleet.Interleave

namespace prom_fleet.spoke

open interleave Function

variable {Id ι : Type}

/-! ## The shared fields -/

/-- The fields of a `spoke` that renewals and dialers share. Channels are numbered in the
order in which they are made. Closing a closed channel is a panic. -/
structure Signals (Id : Type) where
  identity : Option Id
  reconnect : Nat
  closed : List Nat
  panicked : Bool

/-- `signalReconnect`. It holds the mutex of the spoke from its first line to its last, and so
does `reconnectSignal`. -/
def Signals.signalReconnect (s : Signals Id) : Signals Id :=
  { s with
    closed := s.reconnect :: s.closed
    reconnect := s.reconnect + 1
    panicked := s.panicked || decide (s.reconnect ∈ s.closed) }

/-- What a call has captured: the channel it took, and the identity it read. An identity is
known by the number of identities that were stored up to it. -/
structure Held where
  sig : Option Nat
  age : Option Nat

/-- The spoke. The rest is no data of the source: how many identities were stored, what each
call has stored last, has captured and runs, and the newest identity that was signalled. -/
structure Tunnels (ι Id : Type) where
  signals : Signals Id
  published : Nat
  mine : ι → Nat
  held : ι → Held
  connection : ι → Option (Nat × Nat)
  signalled : Nat

inductive Op (Id : Type) where
  | setIdentity (id : Id)
  | signalReconnect
  | reconnectSignal
  | currentIdentity
  | dial (sig : Nat) (id : Id)
  | hangup

abbrev Answer : Op Id → Type
  | .setIdentity _ => Unit
  | .signalReconnect => Unit
  | .reconnectSignal => Nat
  | .currentIdentity => Option Id
  | .dial _ _ => Unit
  | .hangup => String

section Steps

variable [DecidableEq ι]

def Tunnels.setIdentity (w : Tunnels ι Id) (i : ι) (id : Id) : Tunnels ι Id :=
  { w with
    signals := { w.signals with identity := some id }
    published := w.published + 1
    mine := update w.mine i (w.published + 1) }

def Tunnels.signalReconnect (w : Tunnels ι Id) (i : ι) : Tunnels ι Id :=
  { w with
    signals := w.signals.signalReconnect
    signalled := max w.signalled (w.mine i) }

/-- Call `i` has taken the channel in force. -/
def Tunnels.takeSignal (w : Tunnels ι Id) (i : ι) : Tunnels ι Id :=
  { w with held := update w.held i { w.held i with sig := some w.signals.reconnect } }

/-- Call `i` has read the identity in force. -/
def Tunnels.takeIdentity (w : Tunnels ι Id) (i : ι) : Tunnels ι Id :=
  { w with held := update w.held i { w.held i with age := some w.published } }

def Tunnels.connect (w : Tunnels ι Id) (i : ι) (conn : Option (Nat × Nat)) : Tunnels ι Id :=
  { w with connection := update w.connection i conn }

/-- A connection is cancelled when the channel is closed that it was dialled with. The
environment of the last step is the reason why it has ended. -/
def Tunnels.act (i : ι) : (o : Op Id) → String → Tunnels ι Id → Option (Answer o × Tunnels ι Id)
  | .setIdentity id, _, w => some ((), w.setIdentity i id)
  | .signalReconnect, _, w => some ((), w.signalReconnect i)
  | .reconnectSignal, _, w => some (w.signals.reconnect, w.takeSignal i)
  | .currentIdentity, _, w => some (w.signals.identity, w.takeIdentity i)
  | .dial sig _, _, w => some ((), w.connect i ((w.held i).age.map fun age => (sig, age)))
  | .hangup, reason, w => some (reason, w.connect i none)

end Steps

/-- The spoke as a machine. -/
def tunnels (ι Id : Type) [DecidableEq ι] : Machine (@Answer Id) ι String (Tunnels ι Id) where
  act := Tunnels.act

/-! ## The calls -/

/-- The end of a renewal in `renewLoop`. -/
def publish (id : Id) : Prog (@Answer Id) Unit := do
  Prog.call (Op.setIdentity id)
  Prog.call Op.signalReconnect

/-- The renewals of a loop, one after the other. -/
def renewals : List Id → Prog (@Answer Id) Unit
  | [] => .done ()
  | id :: ids => do
    publish id
    renewals ids

def dialOnce : Prog (@Answer Id) String := do
  let sig ← Prog.call Op.reconnectSignal
  let id ← Prog.call Op.currentIdentity
  match id with
  | none => return "no-identity"
  | some id =>
    Prog.call (Op.dial sig id)
    Prog.call Op.hangup

/-- What a thread of the spoke does. -/
inductive Call (Id : Type) where
  | renew (ids : List Id)
  | dial

def Call.program : Call Id → Prog (@Answer Id) String
  | .renew ids => do
    renewals ids
    return ""
  | .dial => dialOnce

variable (identity : Option Id)

/-- A spoke with an identity or without one, before any of the calls. -/
def spokeStart : Tunnels ι Id where
  signals := { identity := identity, reconnect := 0, closed := [], panicked := false }
  published := 0
  mine _ := 0
  held _ := { sig := none, age := none }
  connection _ := none
  signalled := 0

def spokeSystem (calls : ι → Call Id) :
    Conf (@Answer Id) ι (Tunnels ι Id) String where
  shared := spokeStart identity
  thread i := (calls i).program

/-! ## The invariant -/

/-- The channel in force is open and all channels before it are closed. A call that holds an
identity older than a signalled one holds a closed channel. -/
structure Notified (w : Tunnels ι Id) : Prop where
  safe : w.signals.panicked = false
  closed_iff : ∀ ch, ch ∈ w.signals.closed ↔ ch < w.signals.reconnect
  signalled_le : w.signalled ≤ w.published
  mine_le : ∀ i, w.mine i ≤ w.published
  sig_le : ∀ i ch, (w.held i).sig = some ch → ch ≤ w.signals.reconnect
  held : ∀ i ch age, (w.held i).sig = some ch → (w.held i).age = some age →
    age < w.signalled → ch < w.signals.reconnect
  connection : ∀ i ch age, w.connection i = some (ch, age) →
    (w.held i).sig = some ch ∧ (w.held i).age = some age

/-- Call `i` touches only what is its own, beside the fields of the spoke. -/
def OwnOnly (i : ι) (w w' : Tunnels ι Id) : Prop :=
  ∀ j, j ≠ i → w'.held j = w.held j ∧ w'.connection j = w.connection j

/-- What the calls of a spoke rely on: nobody else touches what they have captured. -/
def spokePact (ι Id : Type) : Pact (Op Id) ι String (Tunnels ι Id) where
  inv := Notified
  cond _ _ _ _ := True
  rely i w w' := w'.held i = w.held i ∧ w'.connection i = w.connection i
  guar := OwnOnly
  rely_refl _ _ := ⟨rfl, rfl⟩
  rely_trans _ _ _ _ h h' := ⟨h'.1.trans h.1, h'.2.trans h.2⟩
  rely_of_guar _ j _ _ hij _ _ h := h j (Ne.symm hij)

theorem notified_start : Notified (spokeStart identity : Tunnels ι Id) where
  safe := rfl
  closed_iff ch := by simp [spokeStart]
  signalled_le := Nat.le_refl 0
  mine_le _ := Nat.le_refl 0
  sig_le i ch h := by cases h
  held i ch age h := by cases h
  connection i ch age h := by cases h

variable {w : Tunnels ι Id}

theorem Notified.setIdentity [DecidableEq ι] (h : Notified w) (i : ι) (id : Id) :
    Notified (w.setIdentity i id) :=
  { h with
    signalled_le := Nat.le_succ_of_le h.signalled_le
    mine_le := (forall_update_iff w.mine fun _ age => age ≤ w.published + 1).mpr
      ⟨Nat.le_refl _, fun j _ => Nat.le_succ_of_le (h.mine_le j)⟩ }

/-- The signal closes the channel in force, which every call that reads the identity before
it has taken, if not an older one. -/
theorem Notified.signalReconnect (h : Notified w) (i : ι) : Notified (w.signalReconnect i) where
  safe := by
    have hopen : w.signals.reconnect ∉ w.signals.closed := by
      intro hmem
      exact absurd ((h.closed_iff _).mp hmem) (Nat.lt_irrefl _)
    simp [Tunnels.signalReconnect, Signals.signalReconnect, h.safe, hopen]
  closed_iff ch := by
    simp only [Tunnels.signalReconnect, Signals.signalReconnect, List.mem_cons, h.closed_iff]
    omega
  signalled_le := Nat.max_le.mpr ⟨h.signalled_le, h.mine_le i⟩
  mine_le := h.mine_le
  sig_le j ch hsig := Nat.le_succ_of_le (h.sig_le j ch hsig)
  held j ch age hsig hage hlt := Nat.lt_succ_of_le (h.sig_le j ch hsig)
  connection := h.connection

variable {i : ι}

/-- A call that takes the channel has not read the identity yet. -/
theorem Notified.takeSignal [DecidableEq ι] (h : Notified w) (hage : (w.held i).age = none) :
    Notified (w.takeSignal i) :=
  { h with
    sig_le := (forall_update_iff w.held fun _ x => ∀ ch, x.sig = some ch → ch ≤ _).mpr
      ⟨fun ch hsig => Nat.le_of_eq (Option.some.inj hsig).symm, fun j _ => h.sig_le j⟩
    held := (forall_update_iff w.held fun _ x => ∀ ch age, x.sig = some ch → x.age = some age →
        age < w.signalled → ch < _).mpr
      ⟨fun ch age _ hsome => by simp [hage] at hsome, fun j _ => h.held j⟩
    connection := (forall_update_iff w.held fun j x => ∀ ch age,
        w.connection j = some (ch, age) → x.sig = some ch ∧ x.age = some age).mpr
      ⟨fun ch age hconn => by simpa [hage] using (h.connection i ch age hconn).2,
        fun j _ => h.connection j⟩ }

/-- The identity that is read is at least as new as every signalled one. -/
theorem Notified.takeIdentity [DecidableEq ι] (h : Notified w) (hconn : w.connection i = none) :
    Notified (w.takeIdentity i) :=
  { h with
    sig_le := (forall_update_iff w.held fun _ x => ∀ ch, x.sig = some ch → ch ≤ _).mpr
      ⟨h.sig_le i, fun j _ => h.sig_le j⟩
    held := (forall_update_iff w.held fun _ x => ∀ ch age, x.sig = some ch → x.age = some age →
        age < w.signalled → ch < _).mpr
      ⟨fun ch age _ hage hlt => absurd (Option.some.inj hage ▸ hlt)
        (Nat.not_lt.mpr h.signalled_le), fun j _ => h.held j⟩
    connection := (forall_update_iff w.held fun j x => ∀ ch age,
        w.connection j = some (ch, age) → x.sig = some ch ∧ x.age = some age).mpr
      ⟨fun ch age hsome => by simp [hconn] at hsome, fun j _ => h.connection j⟩ }

theorem Notified.connect [DecidableEq ι] (h : Notified w) {conn : Option (Nat × Nat)}
    (hconn : ∀ ch age, conn = some (ch, age) →
      (w.held i).sig = some ch ∧ (w.held i).age = some age) : Notified (w.connect i conn) :=
  { h with
    connection := (forall_update_iff w.connection fun j x => ∀ ch age, x = some (ch, age) →
      (w.held j).sig = some ch ∧ (w.held j).age = some age).mpr
      ⟨hconn, fun j _ => h.connection j⟩ }

/-! ## Every call keeps it -/

section Calls

variable [DecidableEq ι] {i : ι} {w : Tunnels ι Id}

theorem renewals_holds (ids : List Id) (Q : Unit → Tunnels ι Id → Prop)
    (hQ : ∀ w, Q () w) : Holds (tunnels ι Id) (spokePact ι Id) i (renewals ids) Q w := by
  induction ids generalizing w with
  | nil => exact fun t _ _ => hQ t
  | cons id ids ih =>
    intro t _ ht e _ a u hu
    cases hu
    refine ⟨ht.setIdentity i id, fun j _ => ⟨rfl, rfl⟩, ?_⟩
    intro t' _ ht' e' _ a' u' hu'
    cases hu'
    exact ⟨ht'.signalReconnect i, fun j _ => ⟨rfl, rfl⟩, ih⟩

/-- A dialer begins with nothing captured, and takes the channel before the identity. -/
theorem dialOnce_holds (hheld : w.held i = { sig := none, age := none })
    (hconn : w.connection i = none) :
    Holds (tunnels ι Id) (spokePact ι Id) i dialOnce (fun _ _ => True) w := by
  intro t hrely ht e _ ch t₁ h₁
  cases h₁
  have hheld₁ : t.held i = { sig := none, age := none } := hrely.1.trans hheld
  have hconn₁ : t.connection i = none := hrely.2.trans hconn
  refine ⟨ht.takeSignal (by rw [hheld₁]), fun j hj => ?_, ?_⟩
  · exact ⟨update_of_ne hj _ _, rfl⟩
  intro u hrely' hu e' _ id u₁ h₂
  cases h₂
  have hsig : (u.held i).sig = some t.signals.reconnect := by
    rw [hrely'.1]
    simp [Tunnels.takeSignal]
  refine ⟨hu.takeIdentity (hrely'.2.trans hconn₁), fun j hj => ?_, ?_⟩
  · exact ⟨update_of_ne hj _ _, rfl⟩
  cases u.signals.identity with
  | none => exact fun _ _ _ => trivial
  | some id =>
    intro v hrely'' hv e'' _ a v₁ h₃
    cases h₃
    -- it dials with the channel that it took
    have hkept : (v.held i).sig = some t.signals.reconnect := by
      rw [hrely''.1]
      simp [Tunnels.takeIdentity, hsig]
    refine ⟨hv.connect ?_, fun j hj => ⟨rfl, update_of_ne hj _ _⟩, ?_⟩
    · intro ch age hsome
      obtain ⟨age', hage, heq⟩ := Option.map_eq_some_iff.mp hsome
      cases heq
      exact ⟨hkept, hage⟩
    intro x _ hx e''' _ reason x₁ h₄
    cases h₄
    refine ⟨hx.connect ?_, fun j hj => ⟨rfl, update_of_ne hj _ _⟩, ?_⟩
    · intro ch age hnone
      cases hnone
    · exact fun _ _ _ => trivial

theorem call_holds (call : Call Id) (identity : Option Id) :
    Holds (tunnels ι Id) (spokePact ι Id) i call.program (fun _ _ => True)
      (spokeStart identity) := by
  cases call with
  | renew ids => exact .map (renewals_holds ids _ fun _ => trivial)
  | dial => exact dialOnce_holds rfl rfl

end Calls

/-! ## Renewals reach every tunnel -/

/-- In every run of renewals and dials: a call that has captured an identity older than the newest
signalled one holds a closed channel, a connection whose channel is open runs on an identity that is
at least as new, and no channel is closed twice. -/
theorem renewal_reaches_every_tunnel [DecidableEq ι] (identity : Option Id) (calls : ι → Call Id)
    (ls : List (ι × String)) (c : Conf (@Answer Id) ι (Tunnels ι Id) String)
    (hrun : run (tunnels ι Id) (spokeSystem identity calls) ls = some c) :
    (∀ i ch age, (c.shared.held i).sig = some ch → (c.shared.held i).age = some age →
      age < c.shared.signalled → ch ∈ c.shared.signals.closed) ∧
    (∀ i ch age, c.shared.connection i = some (ch, age) → ch ∉ c.shared.signals.closed →
      c.shared.signalled ≤ age) ∧
    c.shared.signals.panicked = false := by
  have hstart : (spokePact ι Id).inv (spokeSystem identity calls).shared := notified_start identity
  have hinv : Notified c.shared :=
    (run_holds hstart (fun i => call_holds (calls i) identity) (meets_true _ _) hrun).1
  have hheld : ∀ i ch age, (c.shared.held i).sig = some ch → (c.shared.held i).age = some age →
      age < c.shared.signalled → ch ∈ c.shared.signals.closed := by
    intro i ch age hsig hage hlt
    exact (hinv.closed_iff ch).mpr (hinv.held i ch age hsig hage hlt)
  refine ⟨hheld, ?_, hinv.safe⟩
  intro i ch age hconn hopen
  obtain ⟨hsig, hage⟩ := hinv.connection i ch age hconn
  by_contra hlt
  exact hopen (hheld i ch age hsig hage (by omega))

/-- A dialer connects on the first identity, and a renewal comes: the connection still runs on
the old identity, and its channel is closed. -/
theorem renewal_reaches_one_tunnel : ∃ c, run (tunnels (Fin 2) String)
        (spokeSystem (some "first") fun i => if i = 0 then .dial else .renew ["second"])
        ((numbered [0, 0, 0, 1, 1]).map fun i => (i, "")) = some c ∧
      c.shared.connection 0 = some (0, 0) ∧ 0 ∈ c.shared.signals.closed := by
  obtain ⟨hclosed, -, -⟩ := renewal_reaches_every_tunnel (some "first")
    (fun i : Fin 2 => if i = 0 then .dial else .renew ["second"])
    ((numbered [0, 0, 0, 1, 1]).map fun i => (i, "")) _ rfl
  exact ⟨_, rfl, rfl, hclosed 0 0 0 rfl rfl (by decide)⟩

end prom_fleet.spoke
