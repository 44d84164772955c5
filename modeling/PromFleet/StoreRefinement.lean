-- The two backends against one document in memory: one client makes one call after the
-- other, the storage does not fail, and each backend returns what the document returns.
import PromFleet.FileStore
import PromFleet.Sequential
import PromFleet.StoreSystem

namespace prom_fleet.secretstore

open interleave kube store filestore

variable {Blob : Type}

/-! ## The calls of one client -/

/-- What `mutate` makes of a method: an error drops the document that it worked on. -/
def applied {β : Type} : Except store.Err (Bool × β) × State → Except store.Err (Applied β)
  | (.error e, _) => .error e
  | (.ok (changed, r), s) => .ok { changed := changed, state := s, result := r }

def backend (json : Json Blob) (key : String) (cfg : Config) : Setup Unit store.Op Reply Blob :=
  { key := key
    cfg := fun _ => cfg
    json := json
    sem := fun op now s => applied ((op.method now).run s) }

theorem backend_sem (json : Json Blob) (key : String) (cfg : Config) (op : store.Op) (now : Int)
    (s : State) : (backend json key cfg).sem op now s = op.apply now s := by
  simp only [backend, run_method]
  cases op.apply now s <;> rfl

/-- `PutKeyIfNoUsable` reads the clock for a zero time before it mutates. -/
def resolve (op : store.Op) : Call Unit store.Op Blob store.Op :=
  match op with
  | .putKeyIfNoUsable k at_ => do
    if isZero at_ then
      let t ← now ()
      return .putKeyIfNoUsable k t
    else return op
  | op => return op

def respond (op : store.Op) : Exit Reply Blob → Response
  | .unchanged r => .ok (op.answer false r)
  | .committed r _ => .ok (op.answer true r)
  | .refused e | .decodeFailed e => .failed e false
  | .tooLarge e => .failed e (op.beside true)
  | .canceled | .closed | .loadFailed _ | .updateFailed _ | .interrupted | .exhausted =>
    .unavailable

def serve (S : Setup Unit store.Op Reply Blob) (q : store.Request) :
    Call Unit store.Op Blob Response :=
  match q with
  | .mutate op => do
    let op' ← resolve op
    let x ← mutate S () op'
    return respond op x
  | q => do
    match ← read S () with
    | .error (.decode e) => return .failed e false
    | .error _ => return .unavailable
    | .ok st => return q.read st

/-- What the calls return, each with the state after it. -/
def serveAll (S : Setup Unit store.Op Reply Blob) (env : Nat → Env) :
    List store.Request → Nat → World Unit Unit store.Op Blob →
      Option (List (Response × World Unit Unit store.Op Blob))
  | [], _, _ => some []
  | q :: qs, n, w =>
    match exec (machine S) env (serve S q) n w with
    | none => none
    | some (r, n', w') => (serveAll S env qs n' w').map ((r, w') :: ·)

/-- Each of these calls has one of these times from the clock at one of its own steps. -/
def ReadAt (S : Setup Unit store.Op Reply Blob) (env : Nat → Env) :
    List store.Request → List Int → Nat → World Unit Unit store.Op Blob → Prop
  | [], ts, _, _ => ts = []
  | q :: qs, ts, n, w => ∃ r n' w' m ts', exec (machine S) env (serve S q) n w = some (r, n', w') ∧
      n ≤ m ∧ m < n' ∧ ts = (env m).now :: ts' ∧ ReadAt S env qs ts' n' w'

/-! ## One call -/

/-- The Secret is the current one, the document is in it, and a cached copy is no older. -/
structure Keeping (S : Setup Unit store.Op Reply Blob) (doc : State) (sec : Secret Blob)
    (w : World Unit Unit store.Op Blob) : Prop where
  open_ : (w.mem ()).closed = false
  current : current w.server = some sec
  positive : 0 < sec.resourceVersion
  decodes : decode S.json (S.document sec) = .ok doc
  cached : ∀ c, (w.mem ()).cached = some c → c = sec

/-- The document is in the Secret, or there is no Secret yet. -/
inductive InSync (S : Setup Unit store.Op Reply Blob) (doc : State)
    (w : World Unit Unit store.Op Blob) : Prop where
  | absent (open_ : (w.mem ()).closed = false) (server : w.server = [])
      (cached : (w.mem ()).cached = none) (empty : doc = newState)
  | kept (sec : Secret Blob) (h : Keeping S doc sec w)

/-- A step at which nothing fails, and whose clock shows one of these readings. -/
def Calm (reading : Int → Prop) (e : Env) : Prop :=
  e.fault = .delivered ∧ e.done = false ∧ reading e.now

section Calls

variable {S : Setup Unit store.Op Reply Blob} {doc : State} {sec : Secret Blob}
  {w : World Unit Unit store.Op Blob} {reading : Int → Prop}

theorem InSync.isOpen (h : InSync S doc w) : (w.mem ()).closed = false := by
  cases h with
  | absent hopen _ _ _ => exact hopen
  | kept sec hk => exact hk.open_

theorem keeping_fill (hopen : (w.mem ()).closed = false) (hcurrent : current w.server = some sec)
    (hpos : 0 < sec.resourceVersion) (hdecodes : decode S.json (S.document sec) = .ok doc)
    (now : Int) : Keeping S doc sec (w.setMem () ((w.mem ()).fill (S.sizeOf sec) now sec)) := by
  refine ⟨?_, hcurrent, hpos, hdecodes, ?_⟩
  · simpa [World.setMem, Mem.fill] using hopen
  · simp [World.setMem, Mem.fill]

variable (hj : S.json.RoundTrips)

include hj

theorem fetch_ends (h : InSync S doc w) : Ends (machine S) (Calm reading) (fetch S ())
      (fun x w' => ∃ sec, x = .ok sec ∧ Keeping S doc sec w') w := by
  intro e he
  refine ⟨_, _, rfl, ?_⟩
  cases h with
  | kept sec h =>
    have hget : (deliver e.fault w.server (kube.getSecret w.server, w.server)).1 = .ok sec := by
      simp [he.1, deliver, kube.getSecret, h.current]
    rw [hget]
    intro e' _
    exact ⟨_, _, rfl, sec, rfl, keeping_fill h.open_ h.current h.positive h.decodes e'.now⟩
  | absent hopen hserver _ hempty =>
    have hget : (deliver e.fault w.server (kube.getSecret w.server, w.server)).1 =
        .error .notFound := by
      simp [he.1, deliver, kube.getSecret, kube.current, hserver]
    rw [hget]
    intro e he
    -- the first use creates the Secret with an empty document
    let stored : Secret Blob := { S.empty () with resourceVersion := e.gap + 1 }
    let w' : World Unit Unit store.Op Blob := { w with server := [⟨stored, none⟩] }
    have hcreate : act S () (.createSecret (S.empty ())) e w = some (.ok stored, w') := by
      simp [act, he.1, deliver, kube.createSecret, kube.current, hserver, stored, w']
    refine ⟨_, _, hcreate, ?_⟩
    have hdecodes : decode S.json (S.document stored) = .ok doc := by
      rw [hempty]
      simpa [Setup.document, stored, Setup.empty] using settled_newState.decode_encode hj
    intro e' _
    exact ⟨_, _, rfl, stored, rfl,
      keeping_fill (w := w') hopen rfl (Nat.succ_pos _) hdecodes e'.now⟩

theorem load_ends (h : InSync S doc w) : Ends (machine S) (Calm reading) (load S () false)
      (fun x w' => ∃ sec, x = .ok sec ∧ Keeping S doc sec w') w := by
  intro e he
  refine ⟨_, _, rfl, ?_⟩
  cases hfresh : (w.mem ()).fresh (S.cfg ()).ttl e.now with
  | none => exact fetch_ends hj h
  | some sec =>
    have hcached : (w.mem ()).cached = some sec := by
      unfold Mem.fresh at hfresh
      split at hfresh
      · cases hfresh
      · exact hfresh
    cases h with
    | absent _ _ hnone _ =>
      rw [hnone] at hcached
      cases hcached
    | kept cur h =>
      obtain rfl := h.cached sec hcached
      exact ⟨sec, rfl, h⟩

/-- How one call of `mutate` with this operation ends, for a reading of the clock. -/
inductive Applies (S : Setup Unit store.Op Reply Blob) (reading : Int → Prop) (op : store.Op)
    (doc : State) : Exit Reply Blob → World Unit Unit store.Op Blob → Prop where
  | refused {t : Int} {e : store.Err} {w : World Unit Unit store.Op Blob} :
      reading t → S.sem op t doc = .error e → InSync S doc w →
      Applies S reading op doc (.refused e) w
  | unchanged {t : Int} {a : Applied Reply} {w : World Unit Unit store.Op Blob} :
      reading t → S.sem op t doc = .ok a → a.changed = false → InSync S doc w →
      Applies S reading op doc (.unchanged a.result) w
  | tooLarge {t : Int} {a : Applied Reply} {e : store.Err} {w : World Unit Unit store.Op Blob} :
      reading t → S.sem op t doc = .ok a → a.changed = true →
      encodeWithin S.json (S.cfg ()).maxBytes a.state = .error e → InSync S doc w →
      Applies S reading op doc (.tooLarge e) w
  | committed {t : Int} {a : Applied Reply} {b : Blob} {sec : Secret Blob}
      {w : World Unit Unit store.Op Blob} :
      reading t → S.sem op t doc = .ok a → a.changed = true →
      encodeWithin S.json (S.cfg ()).maxBytes a.state = .ok b → InSync S a.state w →
      Applies S reading op doc (.committed a.result sec) w

theorem attempt_ends
    (hsettled : ∀ op t a, S.sem op t doc = .ok a → Settled a.state) (h : InSync S doc w)
    (op : store.Op) : Ends (machine S) (Calm reading) (attempt S () op false)
      (fun x w' => ∃ y, x = some y ∧ Applies S reading op doc y w') w := by
  refine .bind ((load_ends hj h).mono ?_)
  rintro _ w ⟨sec, rfl, hk⟩
  simp only [hk.decodes, Prog.call_bind, Prog.pure_eq]
  intro e he
  refine ⟨e.now, w, rfl, ?_⟩
  have hsync : InSync S doc w := .kept sec hk
  cases hsem : S.sem op e.now doc with
  | error err =>
    simp only [hsem]
    exact .done ⟨_, rfl, .refused he.2.2 hsem hsync⟩
  | ok a =>
    cases hchanged : a.changed with
    | false =>
      simp only [hsem, hchanged, Bool.not_false, if_true]
      exact .done ⟨_, rfl, .unchanged he.2.2 hsem hchanged hsync⟩
    | true =>
      simp only [hsem, hchanged, Bool.not_true, Bool.false_eq_true, if_false]
      cases hwithin : encodeWithin S.json (S.cfg ()).maxBytes a.state with
      | error err => exact .done ⟨_, rfl, .tooLarge he.2.2 hsem hchanged hwithin hsync⟩
      | ok encoded =>
        intro e' he'
        -- nobody else writes, so the version that was read is still the newest one
        let next : Secret Blob := { sec with data := sec.data.insert S.key encoded }
        let updated : Secret Blob :=
          { next with resourceVersion := sec.resourceVersion + e'.gap + 1 }
        let w' : World Unit Unit store.Op Blob :=
          { w with server := ⟨updated, some ((), op, e.now)⟩ :: w.server }
        have hupdate : act S () (.updateSecret next op e.now) e' w = some (.ok updated, w') := by
          simp [act, he'.1, deliver, kube.updateSecret, hk.current, next, updated, w',
            Nat.ne_of_gt hk.positive]
        refine ⟨_, _, hupdate, ?_⟩
        intro e'' _
        refine ⟨_, _, rfl, Ends.done ⟨_, rfl, .committed he.2.2 hsem hchanged hwithin ?_⟩⟩
        have hdecodes : decode S.json (S.document updated) = .ok a.state := by
          simp only [Setup.document, updated, next, Finmap.lookup_insert,
            encodeWithin_ok S.json hwithin]
          exact (hsettled op e.now a hsem).decode_encode hj
        exact .kept updated (keeping_fill (w := w') hk.open_ rfl (Nat.succ_pos _) hdecodes e''.now)

theorem mutate_ends (hattempts : 1 ≤ (S.cfg ()).maxAttempts)
    (hsettled : ∀ op t a, S.sem op t doc = .ok a → Settled a.state) (h : InSync S doc w)
    (op : store.Op) :
    Ends (machine S) (Calm reading) (mutate S () op) (Applies S reading op doc) w := by
  simp only [mutate, Prog.call_bind, Prog.pure_eq]
  intro e _
  refine ⟨false, w, by simp [machine, act, h.isOpen], ?_⟩
  intro e he
  refine ⟨false, w, by simp [machine, act, he.2.1], ?_⟩
  obtain ⟨n, hn⟩ : ∃ n, (S.cfg ()).maxAttempts = n + 1 := ⟨_, (Nat.sub_add_cancel hattempts).symm⟩
  simp only [hn, attempts, Bool.false_eq_true, if_false]
  refine .bind ((attempt_ends hj hsettled h op).mono ?_)
  rintro _ w' ⟨y, rfl, hy⟩
  exact hy

theorem read_ends (h : InSync S doc w) : Ends (machine S) (Calm reading) (read S ())
      (fun x w' => x = .ok doc ∧ InSync S doc w') w := by
  simp only [read, Prog.call_bind, Prog.pure_eq]
  intro e _
  refine ⟨false, w, by simp [machine, act, h.isOpen], ?_⟩
  intro e he
  refine ⟨false, w, by simp [machine, act, he.2.1], ?_⟩
  simp only [Bool.false_eq_true, if_false]
  refine .bind ((load_ends hj h).mono ?_)
  rintro _ w' ⟨sec, rfl, hk⟩
  simp only [hk.decodes]
  exact .done ⟨rfl, .kept sec hk⟩

end Calls

/-! ## Every call -/

section Serve

variable {json : Json Blob} {key : String} {cfg : Config} {doc : State}
  {w : World Unit Unit store.Op Blob} {reading : Int → Prop}

theorem resolve_ends {S : Setup Unit store.Op Reply Blob} (hreading : ∃ t, reading t)
    (op : store.Op) : Ends (machine S) (Calm reading) (resolve op)
      (fun op' w' => w' = w ∧ ∃ t, reading t ∧ op' = op.timed t) w := by
  obtain ⟨t, ht⟩ := hreading
  cases op with
  | putKeyIfNoUsable k at_ =>
    simp only [resolve, Prog.call_bind, Prog.pure_eq]
    by_cases hzero : isZero at_ = true
    · rw [if_pos hzero]
      intro e he
      exact ⟨_, _, rfl, rfl, e.now, he.2.2, by simp [Op.timed, whenOf, hzero]⟩
    · rw [if_neg hzero]
      exact .done ⟨rfl, t, ht, by simp [Op.timed, whenOf, hzero]⟩
  | _ => exact .done ⟨rfl, t, ht, rfl⟩

/-- The operation takes its time from one reading: from the first one where it is resolved
before the document is loaded, and from the second one otherwise. -/
theorem apply_timed (op : store.Op) (t t' : Int) (doc : State) :
    (op.timed t).apply t' doc = (op.timed t).apply t doc ∨
      (op.timed t).apply t' doc = (op.timed t').apply t' doc := by
  cases op with
  | putKeyIfNoUsable k at_ => exact .inl rfl
  | _ => exact .inr rfl

theorem serve_ends (hj : json.RoundTrips) (hattempts : 1 ≤ cfg.maxAttempts)
    (hreading : ∃ t, reading t) (hdoc : Settled doc) (h : InSync (backend json key cfg) doc w)
    (q : store.Request) :
    Ends (machine (backend json key cfg)) (Calm reading) (serve (backend json key cfg) q)
      (fun r w' => ∃ t, reading t ∧ r = (inMemory json cfg.maxBytes q t doc).1 ∧
        InSync (backend json key cfg) (inMemory json cfg.maxBytes q t doc).2 w') w := by
  cases q with
  | mutate op =>
    refine .bind ((resolve_ends hreading op).mono ?_)
    rintro _ _ ⟨rfl, t, ht, rfl⟩
    have hsettled : ∀ op t a, (backend json key cfg).sem op t doc = .ok a → Settled a.state := by
      intro op t a ha
      rw [backend_sem] at ha
      exact (apply_effect ha).settled hdoc
    refine .bind ((mutate_ends hj hattempts hsettled h _).mono fun x w' hx => ?_)
    -- the reading that the method has used
    have hused : ∀ t', reading t' → ∃ u, reading u ∧
        (op.timed u).apply u doc = (backend json key cfg).sem (op.timed t) t' doc := by
      intro t' ht'
      rw [backend_sem]
      rcases apply_timed op t t' doc with hsame | hsame
      · exact ⟨t, ht, hsame.symm⟩
      · exact ⟨t', ht', hsame.symm⟩
    cases hx with
    | refused ht' hsem hsync =>
      obtain ⟨u, hu, happly⟩ := hused _ ht'
      rw [hsem] at happly
      exact .done ⟨u, hu, by simp [inMemory_mutate, happly, respond],
        by simpa [inMemory_mutate, happly] using hsync⟩
    | unchanged ht' hsem hchanged hsync =>
      obtain ⟨u, hu, happly⟩ := hused _ ht'
      rw [hsem] at happly
      exact .done ⟨u, hu, by simp [inMemory_mutate, happly, hchanged, respond],
        by simpa [inMemory_mutate, happly, hchanged] using hsync⟩
    | tooLarge ht' hsem hchanged hwithin hsync | committed ht' hsem hchanged hwithin hsync =>
      obtain ⟨u, hu, happly⟩ := hused _ ht'
      rw [hsem] at happly
      have hlimit : encodeWithin json cfg.maxBytes _ = _ := hwithin
      exact .done ⟨u, hu, by simp [inMemory_mutate, happly, hchanged, hlimit, respond],
        by simpa [inMemory_mutate, happly, hchanged, hlimit] using hsync⟩
  | _ =>
    obtain ⟨t, ht⟩ := hreading
    refine .bind ((read_ends hj h).mono ?_)
    rintro _ w' ⟨rfl, hsync⟩
    exact .done ⟨t, ht, rfl, hsync⟩

/-- The bytes of the document in the Secret. -/
def storedIn (key : String) (w : World Unit Unit store.Op Blob) : Option Blob :=
  (current w.server).bind fun sec => sec.data.lookup key

theorem InSync.decodes (h : InSync (backend json key cfg) doc w) :
    decode json (storedIn key w) = .ok doc := by
  cases h with
  | absent _ hserver _ hempty => simp [storedIn, current, hserver, hempty, decode]
  | kept sec hk =>
    rw [storedIn, hk.current]
    exact hk.decodes

theorem serve_ne_done (q : store.Request) (r : Response) :
    serve (backend json key cfg) q ≠ .done r := by
  cases q with
  | mutate op =>
    cases op with
    | putKeyIfNoUsable k at_ =>
      by_cases hzero : isZero at_ = true <;> simp [serve, resolve, mutate, hzero]
    | _ => simp [serve, resolve, mutate]
  | _ => simp [serve, read]

/-- A call answers by the clock at one of its own steps. -/
theorem serve_exec (hj : json.RoundTrips) (hattempts : 1 ≤ cfg.maxAttempts) {env : Nat → Env}
    (henv : ∀ n, (env n).fault = .delivered ∧ (env n).done = false) (hdoc : Settled doc)
    (h : InSync (backend json key cfg) doc w) (q : store.Request) (n : Nat) :
    ∃ r n' w' m, exec (machine (backend json key cfg)) env (serve (backend json key cfg) q) n w =
        some (r, n', w') ∧ n ≤ m ∧ m < n' ∧
      r = (inMemory json cfg.maxBytes q (env m).now doc).1 ∧
      InSync (backend json key cfg) (inMemory json cfg.maxBytes q (env m).now doc).2 w' := by
  have hread : ∃ _ : Int, True := ⟨0, trivial⟩
  obtain ⟨r, n', w', hexec, -⟩ := exec_of_ends (serve_ends hj hattempts hread hdoc h q)
    (fun n => ⟨(henv n).1, (henv n).2, trivial⟩) n
  obtain ⟨hover, hsame⟩ := exec_steps hexec
  have hlt : n < n' := hover.resolve_left (serve_ne_done q r)
  -- the same execution, with a supply that shows no other times than those of its steps
  have hown : ∀ m, Calm (fun t => ∃ m, n ≤ m ∧ m < n' ∧ (env m).now = t)
      (if n ≤ m ∧ m < n' then env m else env n) := by
    intro m
    split
    · rename_i hm
      exact ⟨(henv m).1, (henv m).2, m, hm.1, hm.2, rfl⟩
    · exact ⟨(henv n).1, (henv n).2, n, le_rfl, hlt, rfl⟩
  obtain ⟨r', n'', w'', hexec', _, ⟨m, hle, hm, rfl⟩, hr, hsync⟩ := exec_of_ends
    (serve_ends hj hattempts ⟨_, n, le_rfl, hlt, rfl⟩ hdoc h q) hown n
  rw [hsame _ fun m hle hm => if_pos ⟨hle, hm⟩] at hexec'
  cases hexec'
  exact ⟨r, n', w', m, hexec, hle, hm, hr, hsync⟩

theorem InSync.follows (hj : json.RoundTrips) (hattempts : 1 ≤ cfg.maxAttempts)
    {env : Nat → Env} (henv : ∀ n, (env n).fault = .delivered ∧ (env n).done = false)
    (qs : List store.Request) (n : Nat) (h : InSync (backend json key cfg) doc w)
    (hdoc : Settled doc) : ∃ trace ts, serveAll (backend json key cfg) env qs n w = some trace ∧
      ReadAt (backend json key cfg) env qs ts n w ∧
      Follows json (storedIn key) doc trace (inMemoryAll json cfg.maxBytes (qs.zip ts) doc) := by
  induction qs generalizing n w doc with
  | nil => exact ⟨[], [], rfl, rfl, trivial⟩
  | cons q qs ih =>
    obtain ⟨r, n', w', m, hexec, hle, hm, hr, hsync⟩ :=
      serve_exec hj hattempts henv hdoc h q n
    obtain ⟨trace, ts, htrace, hts, hfollows⟩ :=
      ih n' hsync (inMemory_settled json cfg.maxBytes hdoc)
    refine ⟨(r, w') :: trace, (env m).now :: ts, by simp [serveAll, hexec, htrace],
      ⟨r, n', w', m, ts, hexec, hle, hm, rfl, hts⟩, hr, hsync.decodes, fun hfailed => ?_, hfollows⟩
    rw [hr] at hfailed
    exact inMemory_failed json cfg.maxBytes hfailed

end Serve

/-! ## Both backends -/

/-- An encoding for the example: a tidy document is its own bytes, and their number grows
with the keys. -/
def tidyJson : Json State :=
  { len := fun s => 1 + s.keys.keys.card
    marshal := fun s => if Tidy s then s else newState
    unmarshal := fun s => if Tidy s then .ok s else .error "a digest in a key" }

theorem tidyJson_roundTrips : tidyJson.RoundTrips where
  len_pos s := by simp [tidyJson]
  exact s hs := by simp [tidyJson, hs]
  tidy b s h := by
    simp only [tidyJson] at h
    split at h
    · cases h
      assumption
    · cases h

def agentKey (kid : String) : fleet.Key :=
  { kid := kid, cls := .agent, name := kid, owner := "ops", secretHMAC := [7], scope := none,
    enrollment := none, createdAt := 1, expiresAt := 0, lastUsed := none, revokedAt := none,
    revokedReason := "" }

/-- A store on a file and a store on a Secret that begin with one document: in every sequence of
calls of one client, each returns what the methods of one document in memory return, has that
document stored, and leaves it as it was where a call fails. -/
theorem backends_follow_one_document (json : Json Blob) (hj : json.RoundTrips) (max : Int)
    (doc : State) (file : Option Blob) (hfile : decode json file = .ok doc)
    (files : Store Blob) (hopen : open_ json file = .ok files)
    (key : String) (start : Option (Secret Blob)) (hversioned : Versioned start)
    (hsecret : decode json (start.bind fun sec => sec.data.lookup key) = .ok doc)
    (cfg : Config) (hattempts : 1 ≤ cfg.maxAttempts) (hmax : cfg.maxBytes = max)
    (qs : List store.Request) : (∀ es : List filestore.Env, (∀ e ∈ es, e.Calm) →
      Follows json (fun s => some s.file) doc (files.serveAll json max (qs.zip es))
        (inMemoryAll json max (qs.zip (es.map fun e => e.now)) doc)) ∧
    ∀ env : Nat → Env, (∀ n, (env n).fault = .delivered ∧ (env n).done = false) →
      ∃ trace ts, serveAll (backend json key cfg) env qs 0 (initial start) = some trace ∧
        ReadAt (backend json key cfg) env qs ts 0 (initial start) ∧
        Follows json (storedIn key) doc trace (inMemoryAll json max (qs.zip ts) doc) := by
  have hdoc : Settled doc := settled_of_decode hj hfile
  refine ⟨fun es hes => ?_, fun env henv => ?_⟩
  · obtain ⟨doc', hdoc', hsynced⟩ := open_synced json hj hopen
    obtain rfl : doc = doc' := Except.ok.inj (hfile.symm.trans hdoc')
    have hcalm : ∀ x ∈ qs.zip es, x.2.Calm := fun x hx => hes x.2 (List.of_mem_zip hx).2
    have hfollows := hsynced.follows max hj (qs.zip es) hcalm
    rwa [show (qs.zip es).map (fun x => (x.1, x.2.now)) = qs.zip (es.map fun e => e.now) by
      rw [List.zip_map_right]; rfl] at hfollows
  · have hsync : InSync (backend json key cfg) doc (initial start) := by
      cases start with
      | none => exact .absent rfl rfl rfl (Except.ok.inj hsecret).symm
      | some sec => exact .kept sec ⟨rfl, rfl, hversioned sec rfl, hsecret, fun c hc => by cases hc⟩
    rw [← hmax]
    exact hsync.follows hj hattempts henv qs 0 hdoc

/-- Two keys are minted and looked up. -/
def twoKeys : List store.Request :=
  [.mutate (.putKey (some (agentKey "a"))), .mutate (.putKey (some (agentKey "b"))),
    .getKey "b", .getKey "a"]

/-- A store with room for one key. -/
def oneKeyConfig : Config := { labels := ∅, ttl := 1000, maxAttempts := 5, maxBytes := 2 }

/-- Two keys do not fit: the second one is refused, and it is not there afterwards. -/
theorem second_key_does_not_fit : ∃ trace ts,
      serveAll (backend tidyJson "state.json" oneKeyConfig) (fun _ => calm) twoKeys 0
        (initial none) = some trace ∧
      trace.map (fun x => x.1.isOk) = [true, false, false, true] ∧
      Follows tidyJson (storedIn "state.json") newState trace
        (inMemoryAll tidyJson 2 (twoKeys.zip ts) newState) := by
  obtain ⟨trace, ts, htrace, _, hfollows⟩ :=
    (backends_follow_one_document tidyJson tidyJson_roundTrips 2 newState none rfl _ rfl
      "state.json" none (fun _ h => by cases h) rfl oneKeyConfig (by decide) rfl twoKeys).2
      (fun _ => calm) (fun _ => ⟨rfl, rfl⟩)
  have heval : (serveAll (backend tidyJson "state.json" oneKeyConfig) (fun _ => calm) twoKeys 0
      (initial none)).map (fun l => l.map fun x => x.1.isOk) =
      some [true, false, false, true] := by decide +kernel
  rw [htrace, Option.map_some, Option.some.injEq] at heval
  exact ⟨trace, ts, htrace, heval, hfollows⟩

/-- The disk fails at the first key, and the file still has the empty document. -/
theorem a_failed_write_leaves_the_document : ∃ s, open_ tidyJson none = .ok s ∧
    decode tidyJson (some (s.serve tidyJson 2 (.mutate (.putKey (some (agentKey "a"))))
      ⟨1, false, some .rename⟩).2.file) = .ok newState := by
  obtain ⟨doc, hdoc, -⟩ := failed_calls_leave_no_trace 2 tidyJson_roundTrips
    (show open_ tidyJson none = .ok _ from rfl)
    [(.mutate (.putKey (some (agentKey "a"))), ⟨1, false, some .rename⟩)]
  obtain rfl : doc = newState := (Except.ok.inj hdoc).symm
  exact ⟨_, rfl, hdoc⟩

end prom_fleet.secretstore
