-- What a store is for: one document in memory, the methods that work on it in place, and
-- a write that is refused when the document would grow too large. A backend follows this
-- reference if it answers alike and what it has stored decodes to the document.
import PromFleet.StoreMethods

namespace prom_fleet.store

open fleet map_range

/-! ## Calls -/

/-- A call of the `Store` interface. A call that visits a map has the order of the visits. -/
inductive Request where
  | mutate (op : Op)
  | getKey (kid : String)
  | listKeys (order : Range String KeyRecord) (cls : KeyClass)
  | listRevokedCerts (order : Range String RevokedCert)
  | epoch

inductive Answer where
  | done (r : Reply)
  | stored (b : Bool)
  | key (k : Key)
  | keys (ks : List Key)
  | certs (cs : List RevokedCert)
  | epoch (n : Nat)

/-- What a call returns. `PutKeyIfNoUsable` returns its boolean beside an error, too. A closed
store, an ended context and failing storage make a call unavailable. -/
inductive Response where
  | ok (a : Answer)
  | failed (e : Err) (stored : Bool)
  | unavailable

def Response.isOk : Response → Bool
  | .ok _ => true
  | _ => false

/-- What a backend returns for a mutation whose method has reported `changed`. -/
def Op.answer (op : Op) (changed : Bool) (r : Reply) : Answer :=
  match op with
  | .putKeyIfNoUsable _ _ => .stored changed
  | _ => .done r

/-- The boolean beside an error, after a method that has reported `changed`. -/
def Op.beside (op : Op) (changed : Bool) : Bool :=
  match op with
  | .putKeyIfNoUsable _ _ => changed
  | _ => false

@[simp] theorem Op.beside_false (op : Op) : op.beside false = false := by
  cases op <;> rfl

/-- A zero time of `PutKeyIfNoUsable` means now. The other methods get the clock. -/
def Op.timed (now : Int) : Op → Op
  | .putKeyIfNoUsable k at_ => .putKeyIfNoUsable k (whenOf at_ now)
  | op => op

/-- The methods that only read. -/
def Request.read : Request → State → Response
  | .getKey kid, s =>
    match store.getKey kid s with
    | .error e => .failed e false
    | .ok k => .ok (.key k)
  | .listKeys order cls, s => .ok (.keys (store.listKeys order cls s))
  | .listRevokedCerts order, s => .ok (.certs (store.listRevokedCerts order s))
  | .epoch, s => .ok (.epoch s.epoch)
  | .mutate _, _ => .unavailable

/-! ## The reference -/

variable {Blob : Type} (json : Json Blob) (max : Int)

/-- A call on the document in memory, at the clock reading `now`. A write that is refused
puts the document back. -/
def inMemory (q : Request) (now : Int) (doc : State) : Response × State :=
  match q with
  | .mutate op =>
    match ((op.timed now).method now).run doc with
    | (.error e, doc') => (.failed e false, doc')
    | (.ok (changed, r), doc') =>
      if !changed then (.ok (op.answer false r), doc')
      else
        match encodeWithin json max doc' with
        | .error e => (.failed e (op.beside true), doc)
        | .ok _ => (.ok (op.answer true r), doc')
  | q => (q.read doc, doc)

/-- What the calls return, each with the document after it. -/
def inMemoryAll : List (Request × Int) → State → List (Response × State)
  | [], _ => []
  | (q, now) :: qs, doc =>
    let x := inMemory json max q now doc
    x :: inMemoryAll qs x.2

theorem inMemory_mutate (op : Op) (now : Int) (doc : State) :
    inMemory json max (.mutate op) now doc =
      match (op.timed now).apply now doc with
      | .error e => (.failed e false, doc)
      | .ok a =>
        if !a.changed then (.ok (op.answer false a.result), doc)
        else
          match encodeWithin json max a.state with
          | .error e => (.failed e (op.beside true), doc)
          | .ok _ => (.ok (op.answer true a.result), a.state) := by
  simp only [inMemory, run_method]
  cases h : (op.timed now).apply now doc with
  | error e => rfl
  | ok a =>
    by_cases hchanged : a.changed = true
    · simp only [left, hchanged, Bool.not_true, Bool.false_eq_true, if_false]
    · have hsame : a.changed = false := by simpa using hchanged
      simp only [left, hsame, apply_unchanged h hsame]

/-- A call leaves the document as it was, or it succeeds with the document of an operation. -/
theorem inMemory_cases (q : Request) (now : Int) (doc : State) :
    (inMemory json max q now doc).2 = doc ∨
      (inMemory json max q now doc).1.isOk = true ∧
        ∃ op a, Op.apply now doc op = .ok a ∧ (inMemory json max q now doc).2 = a.state := by
  cases q with
  | mutate op =>
    rw [inMemory_mutate]
    cases h : (op.timed now).apply now doc with
    | error e => exact .inl rfl
    | ok a =>
      cases hchanged : a.changed with
      | false => exact .inl (by simp [hchanged])
      | true =>
        cases hwithin : encodeWithin json max a.state with
        | error e => exact .inl (by simp [hchanged, hwithin])
        | ok b =>
          refine .inr ⟨by simp [hchanged, hwithin, Response.isOk], op.timed now, a, h, ?_⟩
          simp [hchanged, hwithin]
  | _ => exact .inl rfl

variable {doc : State} {now : Int} {q : Request}

theorem inMemory_failed (h : (inMemory json max q now doc).1.isOk = false) :
    (inMemory json max q now doc).2 = doc := by
  obtain hsame | ⟨hok, _⟩ := inMemory_cases json max q now doc
  · exact hsame
  · rw [hok] at h
    cases h

theorem inMemory_settled (hdoc : Settled doc) : Settled (inMemory json max q now doc).2 := by
  obtain hsame | ⟨_, op, a, ha, hstate⟩ := inMemory_cases json max q now doc
  · rw [hsame]
    exact hdoc
  · rw [hstate]
    exact (apply_effect ha).settled hdoc

/-! ## Backends -/

/-- The backend has answered as the reference, what it has stored (`stored`) decodes to the
document of the reference, and a call that fails leaves that document as it was. -/
def Follows {σ : Type} (stored : σ → Option Blob) :
    State → List (Response × σ) → List (Response × State) → Prop
  | _, [], [] => True
  | doc, (r, s) :: rest, (r', doc') :: rest' =>
    r = r' ∧ decode json (stored s) = .ok doc' ∧ (r.isOk = false → doc' = doc) ∧
      Follows stored doc' rest rest'
  | _, _, _ => False

end prom_fleet.store
