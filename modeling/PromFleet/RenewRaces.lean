-- Pods that renew at the same time. As long as nobody writes between the `Load` of a pod and the
-- `Get` of its `Save`, a save replaces what the pod has looked at; if renewed certificates are
-- fit to be adopted, then one of them is stored and every pod runs on it or knows better. The
-- loop does not ensure the first: of two pods that have looked, the later one overwrites.
import PromFleet.RenewLoopLaws

namespace prom_fleet.renewal

open interleave List kube

variable {ι : Type}

/-- The pod has loaded this Secret since it began its iteration and since it has decided to
renew. -/
def LoadedSince (evs : List (PodEvent ι)) (sec : Secret Bytes) : Prop :=
  ∃ x l y, evs = x ++ l :: y ∧ (∃ e v v', l = ⟨.load, e, .ok sec, v, v'⟩) ∧
    ∀ ev ∈ y, ev.op.goesOn

/-- Where `last` is the last `Load` before these operations: each `Get` of a `Save` finds the
Secret as the `Load` before it has found it, and that `Load` was answered. -/
def undisturbed : Option (PodEvent ι) → List (PodEvent ι) → Prop
  | _, [] => True
  | last, ev :: evs =>
    match ev.op with
    | .load => undisturbed (some ev) evs
    | .reread =>
      (∀ l, last = some l → l.env.fault = .delivered ∧ ev.before = l.before) ∧
        undisturbed last evs
    | _ => undisturbed last evs

variable {evs : List (PodEvent ι)} {last : Option (PodEvent ι)}

theorem undisturbed_tail {ev : PodEvent ι} (h : undisturbed last (ev :: evs))
    (hop : ev.op ≠ .load) : undisturbed last evs := by
  obtain ⟨o, e, a, v, v'⟩ := ev
  cases o with
  | load => exact absurd rfl hop
  | reread => exact h.2
  | timer | now | renew | createSecret | updateSecret => exact h

theorem undisturbed_drop (x : List (PodEvent ι)) (h : undisturbed last (x ++ evs)) :
    ∃ last', undisturbed last' evs := by
  induction x generalizing last with
  | nil => exact ⟨last, h⟩
  | cons ev x ih =>
    by_cases hop : ev.op = .load
    · obtain ⟨o, e, a, v, v'⟩ := ev
      cases hop
      exact ih h
    · exact ih (undisturbed_tail h hop)

/-- What a `Get` of a `Save` finds, if `l` is the last `Load` before it. -/
theorem undisturbed_reread {x y z : List (PodEvent ι)} {l r : PodEvent ι}
    (h : undisturbed last (x ++ l :: (y ++ r :: z))) (hl : l.op = .load)
    (hy : ∀ ev ∈ y, ev.op ≠ .load) (hr : r.op = .reread) :
    l.env.fault = .delivered ∧ r.before = l.before := by
  obtain ⟨last', hdrop⟩ := undisturbed_drop x h
  have hrest : undisturbed (some l) (y ++ r :: z) := by
    obtain ⟨o, e, a, v, v'⟩ := l
    cases hl
    exact hdrop
  clear h hdrop
  induction y with
  | nil =>
    obtain ⟨o, e, a, v, v'⟩ := r
    cases hr
    exact hrest.1 l rfl
  | cons ev y ih =>
    refine ih (fun ev hev => hy ev (mem_cons_of_mem _ hev)) ?_
    exact undisturbed_tail hrest (hy ev mem_cons_self)

section Events

variable {i : ι} {p q : Run Pod} {server t : Server ι}
  {pre post : List (PodEvent ι)} {ev : PodEvent ι} {R : Trail → Prop}
  {P : Trail → Identity → Prop} {Q : Trail → Pod → Prop}

theorem path_suffix (h : Path podMachine i p server (pre ++ ev :: post) q t) :
    ev.after <:+ t ∧ ∀ ev' ∈ post, ev.after <:+ ev'.before :=
  have hkept := h.keeps_after
    (fun _ _ _ _ _ _ hact hs => hs.trans (act_suffix hact)) pre (suffix_refl _)
  ⟨hkept.1, fun ev' hev' => (hkept.2 ev' hev').1⟩

/-- A save that updates the Secret, from its `Load` on. -/
structure SaveStory (P : Trail → Identity → Prop) (pre : List (PodEvent ι)) (old : Secret Bytes)
    (data : StrMap Bytes) : Prop where
  loaded : LoadedSince pre old
  /-- The state of the trail when the save began. -/
  fits : ∃ x id, x <+: pre ∧ P (outcome Trail.next {} x) id ∧
    (outcome Trail.next {} x).load = some (.ok old)
  saves : ∃ id, data = id.data ∧ P (outcome Trail.next {} pre) id

/-- An update that goes through replaces the Secret that the pod has loaded. -/
theorem save_story (h : Path podMachine i p server (pre ++ ev :: post) q t)
    (hp : p.Obeys Trail.next (rule R P) Q {}) (hP : ∀ t id, P t id → t.load ≠ none)
    (hserver : Ordered server) (hquiet : undisturbed none (pre ++ ev :: post))
    {sec old : Secret Bytes} (hop : ev.op = .updateSecret sec) (hold : current ev.before = some old)
    (hversion : sec.resourceVersion = old.resourceVersion) : SaveStory P pre old sec.data := by
  obtain ⟨_, hrules⟩ := h.obeys hp
  have hrule := hrules pre ev post rfl
  rw [hop] at hrule
  obtain ⟨held, id, hheld, hsec, hsaves⟩ := hrule
  obtain ⟨x, r, y, hpre, ⟨e, v, v', hr⟩, hy⟩ := held_of_outcome hheld
  have hsplit : pre ++ ev :: post = x ++ r :: (y ++ ev :: post) := by simp [hpre]
  have hrule := hrules x r _ hsplit
  rw [hr] at hrule
  obtain ⟨id', hfits⟩ := hrule
  obtain ⟨answer, hanswer⟩ := Option.ne_none_iff_exists'.mp (hP _ _ hfits)
  obtain ⟨x', l, y', hx, ⟨e', u, u', hl⟩, hy'⟩ := load_of_outcome hanswer
  have hwhole : pre ++ ev :: post = x' ++ l :: (y' ++ r :: (y ++ ev :: post)) := by
    simp [hpre, hx]
  -- the `Get` of the save found what the `Load` had found
  rw [hwhole] at hquiet
  obtain ⟨hfault, hsame⟩ := undisturbed_reread hquiet (by rw [hl]) (fun ev hev => (hy' ev hev).2)
    (by rw [hr])
  have hacts := h.acts
  have hactl := hacts l (by simp [hwhole])
  have hactr := hacts r (by simp [hwhole])
  rw [hl] at hactl hfault
  rw [hr] at hactr
  have hu : current v = some held := getSecret_answer (congrArg Prod.fst (Option.some.inj hactr))
  have hv : v' = v := (congrArg Prod.snd (Option.some.inj hactr)).symm
  have huv : v = u := by
    rw [hr, hl] at hsame
    exact hsame
  have hans : answer = .ok held := by
    have hget : (deliver e'.fault u (getSecret u, u)).1 = answer :=
      congrArg Prod.fst (Option.some.inj hactl)
    have hdelivered : e'.fault = .delivered := hfault
    rw [hdelivered] at hget
    rw [← hget, ← huv]
    simp [deliver, getSecret, hu]
  -- and the update found it too
  have hstored : Stored held ev.before := by
    rw [hsplit] at h
    have hsuffix := (path_suffix h).2 ev (by simp)
    rw [hr] at hsuffix
    exact (stored_current (hv ▸ hu)).mono hsuffix
  have hordered : Ordered ev.before :=
    ((h.keeps (fun _ _ _ _ _ _ hact => act_ordered hact) hserver).2 ev
      (by simp)).1
  obtain rfl : held = old := by
    refine hordered.eq_current hstored hold ?_
    rw [← hversion, hsec]
  refine ⟨⟨x', l, y' ++ r :: y, by simp [hpre, hx], ⟨e', u, u', by rw [hl, hans]⟩, ?_⟩,
    ⟨x, id', ⟨r :: y, hpre.symm⟩, hfits, by rw [hanswer, hans]⟩, id, by rw [hsec], hsaves⟩
  intro ev hev
  rcases mem_append.mp hev with hev | hev
  · exact (hy' ev hev).1
  rcases mem_cons.mp hev with rfl | hev
  · rw [hr]
    simp [Op.goesOn]
  · exact hy ev hev

end Events

/-! ## One iteration of each pod -/

/-- The hub has renewed the certificate of the pod. -/
def Renewed (s : Spoke) (evs : List (PodEvent ι)) (x : Identity) : Prop :=
  ∃ e m v v', ⟨.renew, e, some m, v, v'⟩ ∈ evs ∧ loadIdentity s m = some x

/-- The pods begin with saved identities that end no earlier than the stored one, and each
renewed one that the hub gives out is fit to be adopted by each of them throughout. -/
structure Adoptable (s : Spoke) (server : Server ι) (pods : ι → Pod) (ls : List (ι × Env)) :
    Prop where
  persisted : ∀ i, (pods i).identityUnpersisted = false
  current : ∀ i id sec stored, (pods i).identity = some id → current server = some sec →
    storedIdentity s sec = some stored → stored.leaf.notAfter ≤ id.leaf.notAfter
  renewed : ∀ l ∈ ls, ∀ m x, l.2.renewed = some m → loadIdentity s m = some x →
    m.keyPEM ≠ [] ∧ m.certPEM ≠ [] ∧ ∀ i id, (pods i).identity = some id → ∀ l' ∈ ls,
      adoptable s id x l'.2.now = true

variable {m : Material}

theorem storedIdentity_of_data {s : Spoke} {x : Identity} {sec : Secret Bytes}
    (hx : loadIdentity s m = some x) (hkey : m.keyPEM ≠ []) (hcert : m.certPEM ≠ [])
    (hdata : sec.data = x.data) : storedIdentity s sec = some x := by
  obtain ⟨leaf, hleaf, rfl⟩ := Option.map_eq_some_iff.mp hx
  have hkc : keyClientKey ≠ keyClientCert := by decide
  have hka : keyClientKey ≠ keyCABundle := by decide
  have hca : keyClientCert ≠ keyCABundle := by decide
  have hmaterial : material sec = some m := by
    unfold material
    rw [hdata]
    simp [Identity.data, secretData, Finmap.lookup_insert_of_ne, hkc, hka, hca, hkey, hcert]
  rw [storedIdentity, hmaterial, Option.bind_some, hx]

section Once

variable {s : Spoke} {retries : Nat} {pod : Pod}

/-- What holds of the saves of a pod in its one iteration. -/
def FitsPod (s : Spoke) (pod : Pod) (t : Trail) (x : Identity) : Prop :=
  ∃ id, pod.identity = some id ∧ Fits s id t x

/-- What holds at the end of its one iteration. -/
def SettledPod (s : Spoke) (pod : Pod) (t : Trail) (pod' : Pod) : Prop :=
  ∀ m, t.renewed = some m → ∃ id, pod.identity = some id ∧ Settled s id t pod'

theorem once_obeys (rounds : Nat) (hrounds : rounds ≤ 1) (hpod : pod.identityUnpersisted = false) :
    (renewLoop s retries rounds pod).Obeys Trail.next
      (rule (fun t => t.renewed = none) (FitsPod s pod)) (SettledPod s pod) {} := by
  have hidle : ∀ {t : Trail} {pod' : Pod}, t.renewed = none → SettledPod s pod t pod' := by
    intro t pod' hnone m hm
    rw [hnone] at hm
    cases hm
  match rounds, hrounds with
  | 0, _ => exact hidle rfl
  | 1, _ =>
    refine .bind ?_ fun _ _ h => h
    unfold iteration
    refine ⟨rfl, ?_⟩
    intro _
    split
    · exact hidle rfl
    rename_i id hid
    rw [if_neg (by simp [hpod])]
    refine (renewIfDue_obeys (R := fun t => t.renewed = none) retries pod rfl
      fun _ h => h).mono ?_ ?_
    · intro t o
      exact rule_mono (fun _ h => h) fun t x h => ⟨id, hid, h⟩
    · intro t pod' h m _
      exact ⟨id, hid, h⟩

/-- In one iteration the hub renews at most once, and the trail keeps what it gave. -/
theorem renewed_once {P : Trail → Identity → Prop} {e : Env}
    {v v' : Server ι} (hrules : ∀ pre ev post, evs = pre ++ ev :: post →
      rule (fun t => t.renewed = none) P (outcome Trail.next {} pre) ev.op)
    (h : ⟨.renew, e, some m, v, v'⟩ ∈ evs) : (outcome Trail.next {} evs).renewed = some m := by
  induction evs using List.reverseRecOn with
  | nil => cases h
  | append_singleton evs ev ih =>
    rw [outcome_concat]
    have hrule := hrules evs ev [] rfl
    rcases mem_append.mp h with h | h
    · have hkept := ih (fun pre x post hx => hrules pre x (post ++ [ev]) (by simp [hx])) h
      obtain ⟨o, e', a, u, u'⟩ := ev
      have hno : ¬ (outcome Trail.next {} evs).renewed = none := by simp [hkept]
      cases o with
      | now why =>
        cases why with
        | due => exact absurd hrule hno
        | adoption => exact hkept
      | load => exact hkept
      | timer | renew => exact absurd hrule hno
      | reread | createSecret | updateSecret => cases a <;> exact hkept
    · rw [← mem_singleton.mp h]
      rfl

end Once

/-! ## The pods of a cluster -/

section Cluster

variable [DecidableEq ι] {s : Spoke} {retries : Nat} {server : Server ι} {pods : ι → Pod}
  {rounds : ι → Nat} {ls : List (ι × Env)} {c : Conf Ans ι (Server ι) Pod} {i : ι}
  {ev : PodEvent ι}

variable (s retries server pods rounds ls i) in
/-- The operations of pod `i`. -/
abbrev eventsOf : List (PodEvent ι) :=
  history podMachine i (cluster s retries server pods rounds) ls

/-- One iteration of each pod, with its operations. -/
structure Race (s : Spoke) (retries : Nat) (server : Server ι) (pods : ι → Pod)
    (rounds : ι → Nat) (ls : List (ι × Env)) (c : Conf Ans ι (Server ι) Pod)
    (evs : ι → List (PodEvent ι)) : Prop where
  run : run podMachine (cluster s retries server pods rounds) ls = some c
  events : evs = eventsOf s retries server pods rounds ls
  once : ∀ i, rounds i ≤ 1
  adoptable : Adoptable s server pods ls
  ordered : Ordered server
  quiet : ∀ i, undisturbed none (evs i)

variable {x : Identity} {evs : ι → List (PodEvent ι)} {w : Version Bytes ι}
  (h : Race s retries server pods rounds ls c evs)

variable (s pods ls) in
/-- A version that was stored holds a renewed identity, and every pod would adopt it. -/
structure Fresh (evs : List (PodEvent ι)) (w : Version Bytes ι) (x : Identity) : Prop where
  renewed : Renewed s evs x
  stored : storedIdentity s w.secret = some x
  adopted : ∀ i id, (pods i).identity = some id → ∀ l ∈ ls, adoptable s id x l.2.now = true

namespace Race

include h

theorem path (i : ι) : Path podMachine i (renewLoop s retries (rounds i) (pods i)) server (evs i)
    (c.thread i) c.shared := by
  rw [h.events]
  exact path_of_run h.run

theorem env (hev : ev ∈ evs i) : (i, ev.env) ∈ ls := by
  rw [h.events] at hev
  exact history_env hev

theorem pushed {older : Server ι} (hw : w :: older <:+ c.shared) :
    w :: older <:+ server ∨ ∃ i, ∃ ev ∈ evs i, ev.before = older ∧ ev.after = w :: older := by
  rw [h.events]
  exact pushed_of_run (fun _ _ _ _ _ _ h => act_pushes h) h.run hw

theorem event_between (hev : ev ∈ evs i) :
    server <:+ ev.before ∧ ev.before <:+ ev.after ∧ ev.after <:+ c.shared := by
  have hpath := h.path i
  refine ⟨?_, act_suffix (hpath.acts ev hev), ?_⟩
  · exact ((hpath.keeps
      (fun _ _ _ _ _ _ hact hs => hs.trans (act_suffix hact)) (suffix_refl _)).2 ev hev).1
  · obtain ⟨pre, post, hsplit⟩ := append_of_mem hev
    rw [hsplit] at hpath
    exact (path_suffix hpath).1

theorem renewed_adoptable {e : Env} {v v' : Server ι}
    (hev : ⟨.renew, e, some m, v, v'⟩ ∈ evs i) (hx : loadIdentity s m = some x) :
    m.keyPEM ≠ [] ∧ m.certPEM ≠ [] ∧ ∀ i id, (pods i).identity = some id → ∀ l' ∈ ls,
      renewal.adoptable s id x l'.2.now = true := by
  have hanswer : e.renewed = some m := congrArg Prod.fst (Option.some.inj ((h.path i).acts _ hev))
  exact h.adoptable.renewed (i, e) (h.env hev) m x hanswer hx

theorem fresh_of_trail {pre post : List (PodEvent ι)} (hsplit : evs i = pre ++ ev :: post)
    (hfits : FitsPod s (pods i) (outcome Trail.next {} pre) x) (hdata : w.secret.data = x.data) :
    Fresh s pods ls (evs i) w x := by
  obtain ⟨id, hid, answer, m, _, _, hrenewed, hx⟩ := hfits
  obtain ⟨_, hmem, e, v, v', rfl⟩ := renewed_of_outcome hrenewed
  have hev : ⟨.renew, e, some m, v, v'⟩ ∈ evs i := by
    rw [hsplit]
    exact mem_append_left _ hmem
  obtain ⟨hkey, hcert, hall⟩ := h.renewed_adoptable hev hx
  exact ⟨⟨e, m, v, v', hev, hx⟩, storedIdentity_of_data hx hkey hcert hdata, hall⟩

theorem rules (i : ι) :
    (c.thread i).Obeys Trail.next (rule (fun t => t.renewed = none) (FitsPod s (pods i)))
        (SettledPod s (pods i)) (outcome Trail.next {} (evs i)) ∧
      ∀ pre ev post, evs i = pre ++ ev :: post →
        rule (fun t => t.renewed = none) (FitsPod s (pods i)) (outcome Trail.next {} pre) ev.op :=
  (h.path i).obeys (once_obeys (rounds i) (h.once i) (h.adoptable.persisted i))

variable (hev : ev ∈ evs i) (hafter : ev.after = w :: ev.before)

include hev hafter

theorem commit_fresh : ∃ x, Fresh s pods ls (evs i) w x := by
  obtain ⟨pre, post, hsplit⟩ := append_of_mem hev
  have hrule := (h.rules i).2 pre ev post hsplit
  rcases act_cases ((h.path i).acts ev hev) with
    hsame | ⟨sec, cur, hop, _, _, hpush⟩ | ⟨sec, hop, _, hpush⟩
  · exact absurd (hafter.symm.trans hsame) (cons_ne_self _ _)
  all_goals
    rw [hop] at hrule
    obtain ⟨rfl, _⟩ := List.cons.inj (hafter.symm.trans hpush)
  · obtain ⟨held, x, _, hsec, hfits⟩ := hrule
    exact ⟨x, h.fresh_of_trail hsplit hfits (by rw [hsec])⟩
  · obtain ⟨x, _, hdata, hfits⟩ := hrule
    exact ⟨x, h.fresh_of_trail hsplit hfits hdata⟩

/-- A save goes through only on the Secret of the start: whatever has come on top of it would
have been adopted. -/
theorem commit_on_server : ev.before = server := by
  obtain ⟨hlow, hstep, hhigh⟩ := h.event_between hev
  have hpath := h.path i
  rcases act_cases (hpath.acts ev hev) with
    hsame | ⟨sec, old, hop, hold, hrv, hpush⟩ | ⟨_, _, hnil, _⟩
  · exact absurd (hafter.symm.trans hsame) (cons_ne_self _ _)
  · by_contra hother
    obtain ⟨w, older, hbefore, hw⟩ := current_eq_some hold
    -- the version that is replaced was stored by some pod in the run
    rcases h.pushed (hbefore ▸ hstep.trans hhigh) with hstart | ⟨j, ev', hev', hbefore', hafter'⟩
    · rw [← hbefore] at hstart
      exact hother (hstart.eq_of_length_le hlow.length_le)
    obtain ⟨x, hfresh⟩ := h.commit_fresh hev' (hbefore' ▸ hafter')
    -- but the pod has loaded it and has not adopted it
    obtain ⟨pre, post, hsplit⟩ := append_of_mem hev
    have hq := h.quiet i
    rw [hsplit] at hpath hq
    have hstory := save_story hpath
      (once_obeys (rounds i) (h.once i) (h.adoptable.persisted i))
      (by
        rintro t y ⟨_, _, answer, _, hload, _⟩ hnone
        rw [hload] at hnone
        cases hnone) h.ordered hq hop hold hrv
    obtain ⟨p, y, hearlier, ⟨id, hid, answer, m, hanswer, hverdict, _⟩, hload⟩ := hstory.fits
    rw [hload] at hanswer
    cases hanswer
    rw [← hw] at hverdict
    obtain ⟨now, hnow, hreject⟩ := hverdict _ x rfl hfresh.stored
    obtain ⟨_, hmem, e, v, v', rfl⟩ := clock_of_outcome hnow
    have hclock : ⟨.now .adoption, e, now, v, v'⟩ ∈ evs i := by
      rw [hsplit]
      exact mem_append_left _ (hearlier.subset hmem)
    have hans : e.now = now := congrArg Prod.fst (Option.some.inj ((h.path i).acts _ hclock))
    have hyes := hfresh.adopted i id hid (i, e) (h.env hclock)
    rw [hans, hreject] at hyes
    cases hyes
  · rw [hnil] at hlow ⊢
    exact (suffix_nil.mp hlow).symm

omit hev hafter

theorem stored_at_most_one :
    c.shared = server ∨ ∃ w x i, c.shared = w :: server ∧ Fresh s pods ls (evs i) w x := by
  have hlow : server <:+ c.shared :=
    run_keeps
      (fun _ _ _ _ _ _ _ hs hact => hs.trans (act_suffix hact)) (suffix_refl _)
      (meets_true _ ls) h.run
  cases hshared : c.shared with
  | nil =>
    rw [hshared] at hlow
    exact .inl (suffix_nil.mp hlow).symm
  | cons w older =>
    rcases h.pushed ⟨[], hshared.symm⟩ with hstart | ⟨i, ev, hev, rfl, hafter⟩
    · rw [hshared] at hlow
      exact .inl (hstart.eq_of_length_le hlow.length_le)
    obtain ⟨x, hfresh⟩ := h.commit_fresh hev hafter
    rw [h.commit_on_server hev hafter]
    exact .inr ⟨w, x, i, rfl, hfresh⟩

/-- A pod that has renewed runs on what is stored, or knows that its own is not. -/
theorem pod_settles {pod : Pod} (hdone : c.thread i = .done pod) (hrenewed : Renewed s (evs i) x) :
    (pod.identityUnpersisted = true ∧ (outcome Trail.next {} (evs i)).refused = true) ∨
      (c.shared ≠ server ∧ ∃ cur id, current c.shared = some cur ∧
        storedIdentity s cur = some id ∧ pod.identity = some id) := by
  obtain ⟨e, m, v, v', hev, hx⟩ := hrenewed
  obtain ⟨hend, hrules⟩ := h.rules i
  have htrail := renewed_once hrules hev
  rw [hdone] at hend
  obtain ⟨id, hid, hsettled⟩ := hend m htrail
  rcases hsettled m x htrail hx with
    hflag | ⟨hidentity, hsaved⟩ | ⟨answer, y, hidentity, hload, hverdict⟩
  · exact .inl hflag
  · -- the save went through, and nothing has come on top of it
    right
    obtain ⟨ev, hmem, stored, hwrites⟩ := saved_of_outcome hsaved
    have hact := (h.path i).acts ev hmem
    have hpush : ∃ w, ev.after = w :: ev.before ∧ w.secret.data = x.data := by
      cases hwrites with
      | @create sec e v v' hdata =>
        have hans : deliver e.fault v (kube.createSecret e.gap i sec v) = (.ok stored, v') :=
          Option.some.inj hact
        rcases kube.deliver_cases hans with hok | ⟨herr, _⟩
        · rcases kube.createSecret_cases hok.symm with ⟨_, herr⟩ | ⟨_, st, hst, _, hv'⟩
          · cases herr
          · exact ⟨_, hv', by rw [hst]; exact hdata⟩
        · cases herr
      | @update sec e v v' hdata =>
        have hans : deliver e.fault v (kube.updateSecret e.gap i sec v) = (.ok stored, v') :=
          Option.some.inj hact
        rcases kube.deliver_cases hans with hok | ⟨herr, _⟩
        · rcases kube.updateSecret_cases hok.symm with ⟨_, _, herr⟩ | ⟨_, st, _, _, hst, _, hv'⟩
          · cases herr
          · exact ⟨_, hv', by rw [hst]; exact hdata⟩
        · cases herr
    obtain ⟨w, hafter, hdata⟩ := hpush
    have hhigh := (h.event_between hmem).2.2
    rw [hafter, h.commit_on_server hmem hafter] at hhigh
    obtain ⟨hkey, hcert, _⟩ := h.renewed_adoptable hev hx
    have hshared : c.shared = w :: server := by
      rcases h.stored_at_most_one with hsame | ⟨w', _, _, hshared, _⟩
      · rw [hsame] at hhigh
        exact absurd hhigh.length_le (by simp)
      · rw [hshared] at hhigh ⊢
        exact (hhigh.eq_of_length rfl).symm
    rw [hshared]
    exact ⟨cons_ne_self _ _, w.secret, x, rfl, storedIdentity_of_data hx hkey hcert hdata,
      hidentity⟩
  · -- what was adopted is not from the start, so it is what is stored
    right
    obtain ⟨sec, now, rfl, _, hstored, hyes⟩ := hverdict
    obtain ⟨p, l, r, hsplit, ⟨e', u, u', rfl⟩, _⟩ := load_of_outcome hload
    have hmem : ⟨.load, e', .ok sec, u, u'⟩ ∈ evs i := by
      rw [hsplit]
      simp
    have hcur : current u = some sec :=
      getSecret_answer (congrArg Prod.fst (Option.some.inj ((h.path i).acts _ hmem)))
    obtain ⟨hlow, hstep, hhigh⟩ := h.event_between hmem
    have hnew : u ≠ server := by
      rintro rfl
      have hle := h.adoptable.current i id sec y hid hcur hstored
      simp only [renewal.adoptable, Bool.and_eq_true, decide_eq_true_eq] at hyes
      omega
    have hu := hstep.trans hhigh
    rcases h.stored_at_most_one with hsame | ⟨w, _, _, hshared, _⟩
    · rw [hsame] at hu
      exact absurd (hu.eq_of_length_le hlow.length_le) hnew
    rw [hshared] at hu ⊢
    rcases suffix_cons_iff.mp hu with hu | hu
    · rw [← hu]
      exact ⟨hnew, sec, y, hcur, hstored, hidentity⟩
    · exact absurd (hu.eq_of_length_le hlow.length_le) hnew

/-- Where every request is answered, a save is refused only if another one went through. -/
theorem refused_means_stored (hanswered : ∀ l ∈ ls, l.2.fault = .delivered)
    (hrefused : (outcome Trail.next {} (evs i)).refused = true) : c.shared ≠ server := by
  intro hsame
  have hrules := (h.rules i).2
  -- every operation has found the Secret of the start
  have hstill : ∀ ev ∈ evs i, ev.before = server := by
    intro ev hev
    obtain ⟨hlow, hstep, hhigh⟩ := h.event_between hev
    rw [hsame] at hhigh
    exact (hstep.trans hhigh).eq_of_length_le hlow.length_le
  have hread : ∀ e (answer : Except Err (Secret Bytes)) v v',
      ⟨.reread, e, answer, v, v'⟩ ∈ evs i → answer = getSecret server := by
    intro e answer v v' hmem
    have hans : (deliver e.fault v (getSecret v, v)).1 = answer :=
      congrArg Prod.fst (Option.some.inj ((h.path i).acts _ hmem))
    have hv : v = server := hstill _ hmem
    rw [hanswered _ (h.env hmem), hv] at hans
    exact hans.symm
  obtain ⟨ev, hev, ⟨data, err, hwrites⟩ | ⟨e, err, v, v', rfl, herr⟩⟩ := refused_of_outcome hrefused
  · obtain ⟨pre, post, hsplit⟩ := append_of_mem hev
    have hrule := hrules pre ev post hsplit
    have hact := (h.path i).acts ev hev
    have hbefore := hstill ev hev
    have hfault := hanswered _ (h.env hev)
    have hsub : ∀ x ∈ pre, x ∈ evs i := by
      intro x hx
      rw [hsplit]
      exact mem_append_left _ hx
    cases hwrites with
    | @create sec e v v' hdata =>
      obtain ⟨_, hheld, _⟩ := hrule
      obtain ⟨x, _, y, hpre, ⟨e', u, u', rfl⟩, _⟩ := held_of_outcome hheld
      have hget := hread e' _ u u' (hsub _ (hpre ▸ mem_append_right _ mem_cons_self))
      obtain rfl : v = server := hbefore
      have hans : deliver e.fault v (kube.createSecret e.gap i sec v) = (.error err, v') :=
        Option.some.inj hact
      rw [hfault] at hans
      cases hcur : current v with
      | none => simp [deliver, kube.createSecret, hcur] at hans
      | some cur => simp [kube.getSecret, hcur] at hget
    | @update sec e v v' hdata =>
      obtain ⟨held, id, hheld, hsec, _⟩ := hrule
      obtain ⟨x, _, y, hpre, ⟨e', u, u', rfl⟩, _⟩ := held_of_outcome hheld
      have hget := hread e' _ u u' (hsub _ (hpre ▸ mem_append_right _ mem_cons_self))
      obtain rfl : v = server := hbefore
      have hcur : current v = some held := kube.getSecret_ok hget.symm
      have hans : deliver e.fault v (kube.updateSecret e.gap i sec v) = (.error err, v') :=
        Option.some.inj hact
      obtain ⟨w, older, hv, hw⟩ := kube.current_eq_some hcur
      have hpos := h.ordered.pos w (by rw [hv]; exact mem_cons_self)
      have hne : held.resourceVersion ≠ 0 := by
        rw [← hw]
        omega
      rw [hfault] at hans
      simp [deliver, kube.updateSecret, hcur, hsec, hne] at hans
  · have hget := hread _ _ _ _ hev
    cases hcur : current server with
    | none =>
      simp only [getSecret, hcur] at hget
      cases hget
      exact herr rfl
    | some cur => simp [getSecret, hcur] at hget

end Race

end Cluster

/-- If no write comes between the `Load` of a pod and the `Get` of its `Save`, and these are
answered, each save that replaces a Secret replaces one that the pod has loaded since it decided. If
also each pod makes one iteration, at most one renewed identity is stored, each pod that has renewed
runs on it or knows that its own is not stored, and one is stored if all requests are answered. -/
theorem pods_replace_what_they_loaded_if_undisturbed [DecidableEq ι] (s : Spoke) (retries : Nat)
    (server : Server ι) (hserver : Ordered server) (pods : ι → Pod) (rounds : ι → Nat)
    (ls : List (ι × Env)) (c : Conf Ans ι (Server ι) Pod)
    (hrun : run podMachine (cluster s retries server pods rounds) ls = some c)
    (hquiet : ∀ i, undisturbed none (eventsOf s retries server pods rounds ls i)) :
    (∀ i pre ev post, eventsOf s retries server pods rounds ls i = pre ++ ev :: post →
      ev.after ≠ ev.before → ∀ old, current ev.before = some old → LoadedSince pre old) ∧
    ((∀ i, rounds i ≤ 1) → Adoptable s server pods ls →
      (c.shared = server ∨ ∃ w i x, c.shared = w :: server ∧
        Renewed s (eventsOf s retries server pods rounds ls i) x ∧
        storedIdentity s w.secret = some x) ∧
      (∀ i pod x, c.thread i = .done pod →
        Renewed s (eventsOf s retries server pods rounds ls i) x →
        pod.identityUnpersisted = true ∨ ∃ cur id, current c.shared = some cur ∧
          storedIdentity s cur = some id ∧ pod.identity = some id) ∧
      ((∀ l ∈ ls, l.2.fault = .delivered) → ∀ i pod x, c.thread i = .done pod →
        Renewed s (eventsOf s retries server pods rounds ls i) x → c.shared ≠ server)) := by
  refine ⟨?_, ?_⟩
  · intro i pre ev post hsplit hcommit old hold
    have hpath : Path podMachine i (renewLoop s retries (rounds i) (pods i)) server
      (eventsOf s retries server pods rounds ls i) _ _ := path_of_run hrun
    have hq := hquiet i
    rw [hsplit] at hpath hq
    rcases act_cases (hpath.acts ev (by simp)) with
      hsame | ⟨sec, cur, hop, hcur, hversion, _⟩ | ⟨sec, _, hnil, _⟩
    · exact absurd hsame hcommit
    · rw [hold] at hcur
      cases hcur
      exact (save_story hpath (renewLoop_obeys retries (rounds i) (pods i)) (fun _ _ h => h)
        hserver hq hop hold hversion).loaded
    · rw [hnil] at hold
      cases hold
  · intro hrounds hadopt
    have hrace := Race.mk hrun rfl hrounds hadopt hserver hquiet
    refine ⟨?_, ?_, ?_⟩
    · rcases hrace.stored_at_most_one with hsame | ⟨w, x, i, hw, hfresh⟩
      · exact .inl hsame
      · exact .inr ⟨w, i, x, hw, hfresh.renewed, hfresh.stored⟩
    · intro i pod x hdone hrenewed
      rcases hrace.pod_settles hdone hrenewed with ⟨hflag, _⟩ | ⟨_, h⟩
      · exact .inl hflag
      · exact .inr h
    · intro hanswered i pod x hdone hrenewed
      rcases hrace.pod_settles hdone hrenewed with ⟨_, hrefused⟩ | ⟨hstored, _⟩
      · exact hrace.refused_means_stored hanswered hrefused
      · exact hstored

/-! ## Two pods -/

/-- A cluster whose certificates are two bytes: the times from which and to which they hold. -/
def prod : Spoke where
  clusterID := "prod"
  x509KeyPair
    | [b, e], _ => some ⟨b.toNat, e.toNat, "prod"⟩
    | _, _ => none
  renewAt total := total / 2

/-- The identity that is stored and that both pods run on. -/
def expiring : Identity := ⟨[1], [0, 10], [], ⟨0, 10, "prod"⟩⟩

def expiringSecret : Version Bytes (Fin 2) := ⟨⟨1, expiring.data, ∅, ∅⟩, ⟨0, Nat.zero_lt_two⟩⟩

def twoPods : Fin 2 → Pod := fun _ => ⟨some expiring, false⟩

/-- Each pod gets a certificate of its own from the hub. -/
def atSix (is : List (Fin 2)) : List (Fin 2 × Env) :=
  is.map fun i =>
    (i, { now := 6, fault := .delivered, gap := 0
          renewed := some ⟨[if i.val = 0 then 2 else 3], [6, 16], []⟩ })

/-- Both pods have read before one of them writes. -/
def fairRace : List (Fin 2 × Env) :=
  atSix (numbered [0, 0, 0, 0, 0, 0, 1, 1, 1, 1, 1, 1, 0, 1, 1, 1])

/-- The first pod wins, and the second one adopts its certificate. -/
theorem fair_race_settles :
    ∃ c w pod, run podMachine (cluster prod 3 [expiringSecret] twoPods fun _ => 1) fairRace =
        some c ∧ c.shared = [w, expiringSecret] ∧ c.thread 1 = .done pod ∧
      (pod.identityUnpersisted = true ∨ ∃ cur id, current c.shared = some cur ∧
        storedIdentity prod cur = some id ∧ pod.identity = some id) := by
  have hordered : Ordered [expiringSecret] :=
    ordered_nil.push (by decide) fun cur hcur => by cases hcur
  have hquiet : ∀ i : Fin 2, undisturbed none
      (eventsOf prod 3 [expiringSecret] twoPods (fun _ => 1) fairRace i) := by
    intro i
    match i with
    | 0 | 1 =>
      refine ⟨?_, trivial⟩
      intro l hl
      cases hl
      exact ⟨rfl, rfl⟩
  have hadopt : Adoptable prod [expiringSecret] twoPods fairRace := by
    refine ⟨fun _ => rfl, ?_, ?_⟩
    · intro i id sec stored hid hcur hstored
      cases hid
      cases hcur
      cases hstored
      exact le_refl _
    · intro l hl m x hm hx
      obtain ⟨i, _, rfl⟩ := mem_map.mp hl
      cases hm
      cases hx
      refine ⟨by simp, by simp, ?_⟩
      intro j id hid l' hl'
      obtain ⟨k, _, rfl⟩ := mem_map.mp hl'
      cases hid
      rfl
  refine ⟨_, _, _, rfl, rfl, rfl, ?_⟩
  refine ((pods_replace_what_they_loaded_if_undisturbed prod 3 [expiringSecret] hordered twoPods
    (fun _ => 1) fairRace _ rfl hquiet).2 (fun _ => le_refl _) hadopt).2.1 1 _
    ⟨[3], [6, 16], [], ⟨6, 16, "prod"⟩⟩ rfl ?_
  exact ⟨_, ⟨[3], [6, 16], []⟩, _, _, mem_of_getElem? (i := 4) rfl, rfl⟩

/-- The Secret that a `Load` was answered with. -/
def loadedBy : PodEvent ι → Option (Secret Bytes)
  | ⟨.load, _, .ok sec, _, _⟩ => some sec
  | _ => none

/-- The second pod reads for its save after the first one has written. -/
def unfairRace : List (Fin 2 × Env) :=
  atSix (numbered [0, 0, 0, 0, 1, 1, 1, 1, 0, 0, 0, 1, 1, 1])

/-- The second pod has loaded the expiring identity only, and its save replaces the renewed one
of the first pod. That pod goes on with a certificate that is not stored, and does not know. -/
theorem later_save_overwrites_an_unseen_identity :
    ∃ c w v pod, run podMachine (cluster prod 3 [expiringSecret] twoPods fun _ => 1) unfairRace =
        some c ∧ c.shared = [w, v, expiringSecret] ∧
      (eventsOf prod 3 [expiringSecret] twoPods (fun _ => 1) unfairRace 1).filterMap loadedBy =
        [expiringSecret.secret] ∧
      (eventsOf prod 3 [expiringSecret] twoPods (fun _ => 1) unfairRace 1).getLast?.map
        (fun ev => (ev.before.length, ev.after.length)) = some (2, 3) ∧
      storedIdentity prod v.secret ≠ storedIdentity prod expiringSecret.secret ∧
      c.thread 0 = .done pod ∧ pod.identityUnpersisted = false ∧
      pod.identity ≠ storedIdentity prod w.secret :=
  ⟨_, _, _, _, rfl, rfl, rfl, rfl, by decide, rfl, rfl, by decide⟩

end prom_fleet.renewal
