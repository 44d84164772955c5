-- The veto of the live sessions: a replica that still sees a session on the outgoing
-- root records it in the CA Secret, and no replica retires the root while the record is
-- recent. The veto begins with the step that gets as far as asking the tracker.
import PromFleet.CARotationEvents
import PromFleet.CARotationTrust

namespace prom_fleet.rotation

open interleave gotime List kube

variable {Cert Key ι : Type} {K : Toolkit Cert Key} {i : ι}

/-! ## The versions that the polls make -/

/-- What a write of the signing phase does to the record of the sessions. -/
inductive HoldoutTurn (K : Toolkit Cert Key) (cfg : Config) (n : Int)
    (st st' : CaRotationState) : Prop
  | kept (hcause : st.force ≠ "" ∨ st.sinceOK = false) (hphase : st'.phase = .signing)
    (hprev : st'.prevCertPEM = st.prevCertPEM) (hlast : st'.lastHoldout = st.lastHoldout)
  | seen (hphase : st'.phase = .signing) (hprev : st'.prevCertPEM = st.prevCertPEM)
    (hlast : st'.lastHoldout = (K.parseTime (K.formatTime n)).getD 0)
  | ended (hcause : st.prevCertPEM = [] ∨ st.lastHoldout = 0 ∨
      cfg.holdoutQuiet ≤ timeSub n st.lastHoldout) (hphase : st'.phase = .steady)

variable {new sec : Secret Bytes}

theorem lastHoldout_of_field
    (h : field secretKeyRotationHoldout new = field secretKeyRotationHoldout sec) :
    (readCARotation K new).lastHoldout = (readCARotation K sec).lastHoldout := by
  simp only [readCARotation, h]

theorem Vetted.turn {cfg : Config} {n : Int} {p : CaRotationPlan}
    (h : Vetted K cfg (readCARotation K sec) n p)
    (hsigning : (readCARotation K sec).phase = .signing) (hdata : new.data = (p.write K n sec).data)
    : HoldoutTurn K cfg n (readCARotation K sec) (readCARotation K new) := by
  have hnodup : (p.set.map Prod.fst).Nodup := by
    cases h <;> simp [sighting]
  have hfield := read_write hnodup hdata
  have hphase : (readCARotation K new).phase = p.target := by
    refine (phase_of_text ?_).1
    rw [hfield]
    cases h <;> rfl
  cases h with
  | consume hforce =>
    exact .kept (.inl hforce) (hphase.trans hsigning) (hfield _) (lastHoldout_of_field (hfield _))
  | finish hmissing => exact .ended (.inl hmissing) hphase
  | repair hsince =>
    exact .kept (.inr hsince) (hphase.trans hsigning) (hfield _) (lastHoldout_of_field (hfield _))
  | sight =>
    have hlast : field secretKeyRotationHoldout new = K.formatTime n := hfield _
    refine .seen hphase (hfield _) ?_
    simp only [readCARotation, hlast]
  | retire hquiet => exact .ended (.inr hquiet) hphase

/-- Polls of replicas, each at its own instant, on a network without faults. -/
structure PunctualRun [DecidableEq ι] (K : Toolkit Cert Key) (t : Int) (sec : Secret Bytes)
    (rotators : ι → CaRotator Cert Key) (instant : ι → Int) (ls : List (ι × RotEnv))
    (c : Conf (@RotAns Cert) ι (Int × Server) Unit) : Prop where
  stored : 0 < sec.resourceVersion
  instants : ∀ l ∈ ls, l.2.now = instant l.1 ∧ l.2.fault = .delivered
  reached : run (rotMachine K) (system K t sec fun i => .poll (rotators i)) ls = some c

/-- The operations of poll `i`. -/
abbrev eventsOf [DecidableEq ι] (K : Toolkit Cert Key) (t : Int) (sec : Secret Bytes)
    (rotators : ι → CaRotator Cert Key) (ls : List (ι × RotEnv)) (i : ι) : List (RotEvent Cert) :=
  history (rotMachine K) i (system K t sec fun i => .poll (rotators i)) ls

section Runs

variable [DecidableEq ι] {t : Int} {sec : Secret Bytes} {rotators : ι → CaRotator Cert Key}
  {instant : ι → Int} {ls : List (ι × RotEnv)} {c : Conf (@RotAns Cert) ι (Int × Server) Unit}

variable (h : PunctualRun K t sec rotators instant ls c)

include h

theorem PunctualRun.path (i : ι) : Path (rotMachine K) i (Request.program K (.poll (rotators i)))
      (t, [⟨sec, ⟨.other, t⟩⟩]) (eventsOf K t sec rotators ls i) (c.thread i) c.shared :=
  path_of_run h.reached

theorem PunctualRun.dated (i : ι) :
    Dated c.shared ∧ ∀ ev ∈ eventsOf K t sec rotators ls i, Dated ev.before ∧ Dated ev.after :=
  (h.path i).keeps (fun _ _ _ _ _ _ hact => Dated.act hact) (dated_start h.stored)

theorem PunctualRun.env {ev : RotEvent Cert} (hev : ev ∈ eventsOf K t sec rotators ls i) :
    ev.env.now = instant i ∧ ev.env.fault = .delivered :=
  h.instants _ (history_env hev)

theorem PunctualRun.story (hdone : c.thread i = .done ()) :
    PollStory K (rotators i).cfg (instant i) (eventsOf K t sec rotators ls i) := by
  have hpath := h.path i
  rw [hdone] at hpath
  obtain ⟨x, u, _, hpoll, _⟩ := Path.of_map hpath
  exact poll_path hpoll fun ev hev => (h.env hev).1

variable {older : Server} {v w : Version Bytes Note}

/-- Each version after the first one is the work of a poll, and that of a plan for the
version before it. -/
theorem PunctualRun.turn
    (hw : w :: v :: older <:+ c.shared.2) (hsigning : (readCARotation K v.secret).phase = .signing)
    : ∃ i, w.note.committed = instant i ∧ HoldoutTurn K (rotators i).cfg (instant i)
      (readCARotation K v.secret) (readCARotation K w.secret) := by
  rcases written_of_run h.reached hw with hstart | ⟨i, ev, hev, hbefore, hafter⟩
  · have := hstart.length_le
    simp [system] at this
  refine ⟨i, ?_⟩
  change ev ∈ eventsOf K t sec rotators ls i at hev
  have hact := (h.path i).acts ev hev
  obtain ⟨_, _, hsame | ⟨cur, new, writer, hcur, hrv, hop, hpush⟩⟩ := act_cases hact
  · rw [hbefore, hafter] at hsame
    exact absurd hsame (cons_ne_self _ _)
  rw [hbefore] at hcur hpush
  rw [hafter] at hpush
  obtain ⟨rfl, _⟩ := List.cons.inj hpush
  cases hcur
  have hwrites : ev.op.asks = false ∧ ev.op ≠ .getSecret := by
    rcases hop with hop | ⟨sec, hop⟩ <;> rw [hop] <;> exact ⟨rfl, by simp⟩
  obtain ⟨_, hdone⟩ := (h.path i).ended poll_endsWith hev hwrites
  have hstory := h.story hdone
  have hpath := h.path i
  have hordered := ((h.dated i).2 ev hev).1.ordered
  refine ⟨(h.env hev).1, ?_⟩
  generalize eventsOf K t sec rotators ls i = evs at hstory hpath hev
  cases hstory with
  | idle hread hasks _ =>
    rcases mem_cons.mp hev with rfl | hev
    · exact absurd hread hwrites.2
    · rw [hasks ev hev] at hwrites
      cases hwrites.1
  | @wrote read write asked sec' p hread hsec hasks _ hplan hwrite =>
    obtain rfl : ev = write := by
      rcases mem_append.mp hev with hev | hev
      · rcases mem_cons.mp hev with rfl | hev
        · exact absurd hread hwrites.2
        · rw [hasks ev hev] at hwrites
          cases hwrites.1
      · exact mem_singleton.mp hev
    obtain ⟨hcopy, _, hsince⟩ := since_read hpath hread
    obtain ⟨⟨_, newer, hnewer, _⟩, _⟩ := hsince ev (mem_append_right _ mem_cons_self)
    obtain rfl : new = p.write K (instant i) sec' := by
      rw [hwrite] at hop
      rcases hop with hop | ⟨_, hop⟩
      · cases hop
        rfl
      · cases hop
    -- the write found the version that the poll had read
    have hsame : sec' = v.secret := by
      have hstored : Stored sec' ev.before.2 := by
        rw [hnewer, hcopy]
        exact (kube.stored_current hsec).mono (suffix_append _ _)
      refine hordered.eq_current hstored ?_ hrv
      rw [hbefore]
      rfl
    subst hsame
    exact (hplan hsigning).turn hsigning rfl

/-- What a poll leaves that was told of a session at `n`: the version that it has read
has a recent record, or another version was stored on it at once. -/
structure Holder (K : Toolkit Cert Key) (cfg : Config) (n : Int) (v : Version Bytes Note)
    (older new : Server) : Prop where
  awaits : Awaits (readCARotation K v.secret)
  after : ∀ w ∈ new, n ≤ w.note.committed
  before : ∀ w ∈ v :: older, w.note.committed ≤ n
  record : timeSub n (readCARotation K v.secret).lastHoldout < cfg.pollInterval ∨
    ∃ newer u, new = newer ++ [u] ∧ u.note.committed = n

theorem PunctualRun.holder (hdone : c.thread i = .done ())
    (htold : ∃ ev ∈ eventsOf K t sec rotators ls i, told ev = true) :
    ∃ read v older new, (eventsOf K t sec rotators ls i).head? = some read ∧
      read.before.2 = v :: older ∧ c.shared.2 = new ++ v :: older ∧
      Holder K (rotators i).cfg (instant i) v older new := by
  have hstory := h.story hdone
  have hpath := h.path i
  have henv : ∀ ev ∈ eventsOf K t sec rotators ls i,
      ev.env.now = instant i ∧ ev.env.fault = .delivered := fun ev hev => h.env hev
  have hdated := (h.dated i).2
  generalize eventsOf K t sec rotators ls i = evs at hstory hpath henv hdated htold ⊢
  obtain ⟨ev, hev, htold⟩ := htold
  have hask := asks_of_told htold
  cases hstory with
  | @idle read asked hread hasks hrecorded =>
    have hasked : ev ∈ asked := by
      rcases mem_cons.mp hev with rfl | hev
      · rw [hread] at hask
        cases hask
      · exact hev
    obtain ⟨sec', hsec, hawaits, hrecent⟩ := hrecorded ⟨ev, hasked, htold⟩
    obtain ⟨v, older, new, rfl, hbefore, hnew, hafter, hpast⟩ := read_leaves hpath hread
      (henv _ mem_cons_self).1 (hdated _ mem_cons_self).1 hsec
    exact ⟨read, v, older, new, rfl, hbefore, hnew, hawaits, hafter, hpast, .inl hrecent⟩
  | @wrote read write asked sec' p hread hsec hasks hawaits hplan hwrite =>
    have hasked : ev ∈ asked := by
      rcases mem_append.mp hev with hev | hev
      · rcases mem_cons.mp hev with rfl | hev
        · rw [hread] at hask
          cases hask
        · exact hev
      · rw [mem_singleton.mp hev, hwrite] at hask
        cases hask
    obtain ⟨v, older, new, rfl, hbefore, hnew, hafter, hpast⟩ := read_leaves hpath hread
      (henv _ mem_cons_self).1 (hdated _ mem_cons_self).1 hsec
    exact ⟨read, v, older, new, rfl, hbefore, hnew, hawaits ⟨ev, hasked, htold⟩, hafter, hpast,
      .inr (written_after hpath hread hwrite rfl henv hdated hbefore hnew)⟩

omit h

/-! ## The veto -/

/-- A period of whole seconds, two of which are a duration. -/
structure Period (poll : Int) : Prop where
  pos : 0 < poll
  whole : poll % second = 0
  fits : 2 * poll ≤ maxDuration

variable {poll : Int}

theorem Period.second_le (h : Period poll) : second ≤ poll := by
  have := h.pos
  have := h.whole
  unfold second at *
  omega

theorem Period.between (h : Period poll) {step : Nat → Int} {last : Nat}
    (hstep : ∀ k < last, step (k + 1) = step k + poll) {k : Nat} (hk : k ≤ last) :
    step 0 ≤ step k ∧ step k ≤ step last := by
  have hpos := h.pos
  have hlater : ∀ k j, k + j ≤ last → step k ≤ step (k + j) := by
    intro k j hj
    induction j with
    | zero => exact le_refl _
    | succ j ih =>
      have := ih (by omega)
      have := hstep (k + j) (by omega)
      rw [← Nat.add_assoc]
      omega
  have hdown := hlater 0 k (by omega)
  have hup := hlater k (last - k) (by omega)
  rw [Nat.zero_add] at hdown
  rw [Nat.add_sub_cancel' hk] at hup
  exact ⟨hdown, hup⟩

variable {cfg : Config}

theorem Period.holdoutQuiet (h : Period poll) (hcfg : cfg.pollInterval = poll) :
    cfg.holdoutQuiet = 2 * poll := by
  have := h.pos
  unfold Config.holdoutQuiet
  rw [hcfg]
  apply wrap64_of_mem _ h.fits
  unfold minDuration
  omega

/-- A session was recorded less than a period before `n`, or after it. -/
structure Fresh (poll n : Int) (st : CaRotationState) : Prop where
  signing : st.phase = .signing
  stored : st.prevCertPEM ≠ []
  recorded : st.lastHoldout ≠ 0
  recent : n - poll < st.lastHoldout

variable {n τ : Int} {st : CaRotationState}

/-- A write of a session's sighting is fresh: it loses less than a second. -/
theorem Fresh.of_seen (hK : K.Lawful) (hpoll : Period poll) (hn : poll ≤ n) (hlow : n ≤ τ)
    (hyear : τ < year10000) (hsigning : st.phase = .signing) (hstored : st.prevCertPEM ≠ [])
    (hlast : st.lastHoldout = (K.parseTime (K.formatTime τ)).getD 0) : Fresh poll n st := by
  have hpos := hpoll.pos
  rw [hK.stamp τ (by omega) hyear, Option.getD_some] at hlast
  have htrunc := lt_truncSecond_add τ
  have hsecond := hpoll.second_le
  refine ⟨hsigning, hstored, ?_, ?_⟩ <;> rw [hlast] <;> omega

/-- While a record is fresh, no write of a poll up to a period after `n` retires the
root. -/
theorem Fresh.turn (hK : K.Lawful) (hpoll : Period poll) (hcfg : cfg.pollInterval = poll)
    {st' : CaRotationState} (hfresh : Fresh poll n st) (h : HoldoutTurn K cfg τ st st')
    (hn : poll ≤ n) (hlow : n ≤ τ) (hhigh : τ ≤ n + poll) (hyear : τ < year10000) :
    Fresh poll n st' := by
  obtain ⟨_, hstored, hrecorded, hrecent⟩ := hfresh
  cases h with
  | kept _ hphase hprev hlast => exact ⟨hphase, hprev ▸ hstored, hlast ▸ hrecorded, hlast ▸ hrecent⟩
  | seen hphase hprev hlast => exact .of_seen hK hpoll hn hlow hyear hphase (hprev ▸ hstored) hlast
  | ended hcause _ =>
    exfalso
    rcases hcause with hmissing | hzero | hquiet
    · exact hstored hmissing
    · exact hrecorded hzero
    rw [hpoll.holdoutQuiet hcfg] at hquiet
    have := hpoll.pos
    unfold timeSub minDuration maxDuration at hquiet
    omega

/-- What each version takes from the one below it, all versions have above one that has
it. -/
theorem kept_upward {P Q : Version Bytes Note → Prop} {s : Server}
    (hstep : ∀ w v older, w :: v :: older <:+ s → P v → Q w → P w) (hv : P v) (newer : Server)
    (hs : newer ++ v :: older <:+ s) (hnewer : ∀ w ∈ newer, Q w) : ∀ w ∈ newer, P w := by
  induction newer with
  | nil =>
    intro w hw
    cases hw
  | cons x newer ih =>
    have hbelow := ih ((suffix_cons _ _).trans hs) fun w hw =>
      hnewer w (mem_cons_of_mem _ hw)
    intro w hw
    rcases mem_cons.mp hw with rfl | hw
    · have hQ := hnewer w mem_cons_self
      cases newer with
      | nil => exact hstep w v older hs hv hQ
      | cons y newer => exact hstep w y _ hs (hbelow y mem_cons_self) hQ
    · exact hbelow w hw

/-- The versions from the one after `v` up to `w` have dates up to that of `w`. -/
theorem Dated.below {s : Int × Server} (h : Dated s) {new : Server} (hs : s.2 = new ++ older)
    (hw : w ∈ new) : ∃ newer, newer ++ older <:+ s.2 ∧ w ∈ newer ∧ (∀ x ∈ newer, x ∈ new) ∧
      ∀ x ∈ newer, x.note.committed ≤ w.note.committed := by
  obtain ⟨above, below, rfl⟩ := append_of_mem hw
  have hpairs := h.pairwise
  rw [hs, append_assoc] at hpairs
  obtain ⟨hbelow, _⟩ := pairwise_cons.mp (pairwise_append.mp hpairs).2.1
  refine ⟨w :: below, ?_, mem_cons_self, fun x hx => mem_append_right _ hx, ?_⟩
  · rw [hs, append_assoc]
    exact suffix_append _ _
  intro x hx
  rcases mem_cons.mp hx with rfl | hx
  · exact le_refl _
  · exact hbelow x (mem_append_left _ hx)

section Veto

variable {poll n : Int} {v : Version Bytes Note} {older new : Server} {w : Version Bytes Note}

include h

/-- Above a fresh version the root stays for a period after `n`. -/
theorem PunctualRun.fresh (hK : K.Lawful)
    (hpoll : Period poll) (hcfg : ∀ i, (rotators i).cfg.pollInterval = poll)
    (hdated : Dated c.shared) (hn : poll ≤ n) (hyear : n + poll < year10000)
    (hs : c.shared.2 = new ++ v :: older) (hdates : ∀ w ∈ new, n ≤ w.note.committed)
    (hfresh : Fresh poll n (readCARotation K v.secret)) (hw : w ∈ new)
    (hsoon : w.note.committed ≤ n + poll) : (readCARotation K w.secret).phase = .signing := by
  obtain ⟨newer, hsuffix, hmem, hsub, hbefore⟩ := hdated.below hs hw
  refine (kept_upward (P := fun x => Fresh poll n (readCARotation K x.secret))
    (Q := fun x => n ≤ x.note.committed ∧ x.note.committed ≤ n + poll) ?_ hfresh newer hsuffix
    (fun x hx => ⟨hdates x (hsub x hx), le_trans (hbefore x hx) hsoon⟩) w hmem).signing
  rintro x y rest hxy hy ⟨hlow, hhigh⟩
  obtain ⟨i, hi, hturn⟩ := h.turn hxy hy.signing
  rw [hi] at hlow hhigh
  exact hy.turn hK hpoll (hcfg i) hturn hn hlow hhigh (lt_of_le_of_lt hhigh hyear)

/-- A poll that is told of a session keeps the root for a period, if the root is still
there when the poll is over. -/
theorem PunctualRun.veto (hK : K.Lawful)
    (hpoll : Period poll) (hcfg : ∀ i, (rotators i).cfg.pollInterval = poll)
    (hdated : Dated c.shared) (hn : poll ≤ n) (hyear : n + poll < year10000)
    (hs : c.shared.2 = new ++ v :: older) (hold : Holder K (rotators i).cfg n v older new)
    (hstill : ∀ w ∈ new, w.note.committed ≤ n → (readCARotation K w.secret).phase = .signing)
    (hw : w ∈ new) (hsoon : w.note.committed ≤ n + poll) :
    (readCARotation K w.secret).phase = .signing := by
  have hpos := hpoll.pos
  have hfits := hpoll.fits
  rcases hold.record with hrecent | ⟨newer, u, rfl, hu⟩
  · rw [hcfg i] at hrecent
    have hfresh : n - poll < (readCARotation K v.secret).lastHoldout := by
      unfold timeSub minDuration maxDuration at hrecent
      unfold maxDuration at hfits
      omega
    refine h.fresh hK hpoll hcfg hdated hn hyear hs hold.after
      ⟨hold.awaits.signing, hold.awaits.stored, fun hzero => ?_, hfresh⟩ hw hsoon
    omega
  · have hmem : u ∈ newer ++ [u] := mem_append_right _ mem_cons_self
    have hsigning := hstill u hmem (le_of_eq hu)
    rw [append_assoc, singleton_append] at hs
    have hsuffix : u :: v :: older <:+ c.shared.2 := hs ▸ suffix_append _ _
    obtain ⟨j, hj, hturn⟩ := h.turn hsuffix hold.awaits.signing
    rw [← hj, hu] at hturn
    rcases mem_append.mp hw with hw | hw
    · refine h.fresh hK hpoll hcfg hdated hn hyear hs
        (fun x hx => hold.after x (mem_append_left _ hx)) ?_ hw hsoon
      -- only a sighting can be on top of what the poll has read
      cases hturn with
      | kept hcause _ _ _ =>
        rcases hcause with hforce | hsince
        · exact absurd hold.awaits.unforced hforce
        · rw [hold.awaits.timed] at hsince
          cases hsince
      | seen hphase hprev hlast =>
        exact .of_seen hK hpoll hn (le_refl _) (by omega) hphase (hprev ▸ hold.awaits.stored) hlast
      | ended _ hphase =>
        rw [hphase] at hsigning
        cases hsigning
    · rw [mem_singleton.mp hw]
      exact hsigning

/-- A later poll that is told of a session keeps the root for another period, above the
version that the first one has read. -/
theorem PunctualRun.veto_again (hK : K.Lawful)
    (hpoll : Period poll) (hcfg : ∀ i, (rotators i).cfg.pollInterval = poll)
    (hdated : Dated c.shared) {j : ι} {v' : Version Bytes Note} {older' new' : Server}
    (hearly : poll ≤ instant j) (hyear : instant j + poll < year10000)
    (hs : c.shared.2 = new ++ v :: older) (hfirst : Holder K (rotators i).cfg n v older new)
    (hlater : n < instant j) (hs' : c.shared.2 = new' ++ v' :: older')
    (hold : Holder K (rotators j).cfg (instant j) v' older' new')
    (hstill : ∀ w ∈ new, w.note.committed ≤ instant j →
      (readCARotation K w.secret).phase = .signing) (hw : w ∈ new)
    (hsoon : w.note.committed ≤ instant j + poll) :
    (readCARotation K w.secret).phase = .signing := by
  have hmem : w ∈ new' ++ v' :: older' := by
    rw [← hs', hs]
    exact mem_append_left _ hw
  rcases mem_append.mp hmem with hw' | hw'
  · refine h.veto hK hpoll hcfg hdated hearly hyear hs' hold (fun x hx hdate => ?_) hw' hsoon
    have hx' : x ∈ new ++ v :: older := by
      rw [← hs, hs']
      exact mem_append_left _ hx
    rcases mem_append.mp hx' with hx' | hx'
    · exact hstill x hx' hdate
    -- what was there at the first poll is older than this one
    have := hfirst.before x hx'
    have := hold.after x hx
    omega
  · exact hstill w hw (hold.before w hw')

/-- In a phase that goes on the outgoing root stays the same. -/
theorem PunctualRun.prev_kept
    (hv : (readCARotation K v.secret).phase = .signing) (hs : new ++ v :: older <:+ c.shared.2)
    (hnew : ∀ w ∈ new, (readCARotation K w.secret).phase = .signing) : ∀ w ∈ new,
      (readCARotation K w.secret).prevCertPEM = (readCARotation K v.secret).prevCertPEM := by
  intro w hw
  refine (kept_upward (P := fun x => (readCARotation K x.secret).phase = .signing ∧
    (readCARotation K x.secret).prevCertPEM = (readCARotation K v.secret).prevCertPEM)
    (Q := fun x => (readCARotation K x.secret).phase = .signing) ?_ ⟨hv, rfl⟩ new hs hnew w hw).2
  rintro x y rest hxy ⟨hy, hprev⟩ hx
  obtain ⟨j, _, hturn⟩ := h.turn hxy hy
  refine ⟨hx, ?_⟩
  cases hturn with
  | kept _ _ hsame _ => exact hsame.trans hprev
  | seen _ hsame _ => exact hsame.trans hprev
  | ended _ hphase =>
    rw [hphase] at hx
    cases hx

end Veto

/-- The steps of a replica are a period apart, and the tracker tells each of them of a session on
the outgoing root. Then no version from the first of them to a period after the last one has given
the root up, if none did within the first step itself. -/
theorem a_reported_session_keeps_its_root (K : Toolkit Cert Key) (hK : K.Lawful) (poll : Int)
    (hpoll : Period poll) (rotators : ι → CaRotator Cert Key)
    (hcfg : ∀ i, (rotators i).cfg.pollInterval = poll) (t : Int) (sec : Secret Bytes)
    (instant : ι → Int) (ls : List (ι × RotEnv))
    (c : Conf (@RotAns Cert) ι (Int × Server) Unit)
    (hrun : PunctualRun K t sec rotators instant ls c) (holder : Nat → ι) (last : Nat)
    (hperiod : ∀ k < last, instant (holder (k + 1)) = instant (holder k) + poll)
    (hearly : poll ≤ instant (holder 0)) (hyear : instant (holder last) + poll < year10000)
    (hdone : ∀ k ≤ last, c.thread (holder k) = .done ())
    (htold : ∀ k ≤ last, ∃ ev ∈ eventsOf K t sec rotators ls (holder k), told ev = true)
    (v : Version Bytes Note) (older new : Server)
    (hread : ∃ read, (eventsOf K t sec rotators ls (holder 0)).head? = some read ∧
      read.before.2 = v :: older)
    (hnew : c.shared.2 = new ++ v :: older)
    (hstill : ∀ w ∈ new, w.note.committed ≤ instant (holder 0) →
      (readCARotation K w.secret).phase = .signing) :
    ∀ w ∈ new, w.note.committed ≤ instant (holder last) + poll →
      (readCARotation K w.secret).phase = .signing ∧
        (readCARotation K w.secret).prevCertPEM = (readCARotation K v.secret).prevCertPEM := by
  have hpos := hpoll.pos
  have hdated := (hrun.dated (holder 0)).1
  -- the versions around the one that the first step has read
  have hfirst : Holder K (rotators (holder 0)).cfg (instant (holder 0)) v older new := by
    obtain ⟨read, hhead, hbefore⟩ := hread
    obtain ⟨read', v', older', new', hhead', hbefore', hnew', hold⟩ :=
      hrun.holder (hdone 0 (Nat.zero_le _)) (htold 0 (Nat.zero_le _))
    cases hhead.symm.trans hhead'
    cases hbefore.symm.trans hbefore'
    cases append_cancel_right (hnew.symm.trans hnew')
    exact hold
  have hsteps : ∀ k ≤ last, instant (holder 0) ≤ instant (holder k) ∧
      instant (holder k) ≤ instant (holder last) :=
    fun k hk => @Period.between poll hpoll (fun k => instant (holder k)) last hperiod k hk
  have hveto : ∀ k ≤ last, ∀ w ∈ new, w.note.committed ≤ instant (holder k) + poll →
      (readCARotation K w.secret).phase = .signing := by
    intro k hk
    induction k with
    | zero =>
      intro w hw hsoon
      refine hrun.veto hK hpoll hcfg hdated hearly ?_ hnew hfirst hstill hw hsoon
      have := (hsteps 0 hk).2
      omega
    | succ k ih =>
      have hnext := hperiod k (by omega)
      obtain ⟨hlow, hhigh⟩ := hsteps (k + 1) hk
      have hlow' := (hsteps k (by omega)).1
      obtain ⟨_, v', older', new', _, _, hnew', hold⟩ := hrun.holder (hdone _ hk) (htold _ hk)
      intro w hw hsoon
      refine hrun.veto_again hK hpoll hcfg hdated (le_trans hearly hlow) (by omega) hnew hfirst
        (by omega) hnew' hold (fun x hx hdate => ?_) hw hsoon
      exact ih (by omega) x hx (hnext ▸ hdate)
  intro w hw hsoon
  refine ⟨hveto last (le_refl _) w hw hsoon, ?_⟩
  obtain ⟨newer, hsuffix, hmem, hsub, hbefore⟩ := hdated.below hnew hw
  exact hrun.prev_kept hfirst.awaits.signing hsuffix
    (fun x hx => hveto last (le_refl _) x (hsub x hx) (le_trans (hbefore x hx) hsoon)) w hmem

end Runs

/-! ## Two replicas at the gate -/

def outgoing : Secret Bytes :=
  { resourceVersion := 7
    data := (((((∅ : StrMap Bytes).insert secretKeyCACert [101]).insert secretKeyCAKey [1]).insert
      secretKeyCAPrevCert [100]).insert secretKeyRotationPhase CaPhase.signing.text).insert
      secretKeyRotationSince (smallKit.formatTime noon)
    labels := ∅
    annotations := ∅ }

/-- So many seconds after the gate opens. -/
def sinceGate (n : Int) : Int := noon + defaults.retirementHold + n * second

def pollAt (n : Int) (sessions ops : Nat) (i : Fin 5) : List (Fin 5 × RotEnv) :=
  List.replicate ops
    (i, { now := sinceGate n, fault := .delivered, gap := 0, seed := none, holdouts := sessions })

/-- Five polls of two replicas that run since noon. -/
def twoReplicas : Fin 5 → CaRotator Nat Nat := fun _ => replica defaults noon

/-- A replica with a session polls before the gate opens, the other one when it opens. -/
def gateRun : List (Fin 5 × RotEnv) :=
  pollAt (-310) 1 2 0 ++ pollAt (-300) 0 2 1 ++ pollAt (-10) 1 2 2 ++ pollAt 0 0 5 3 ++
    pollAt 290 1 2 4

def gateInstants : Fin 5 → Int
  | 0 => sinceGate (-310)
  | 1 => sinceGate (-300)
  | 2 => sinceGate (-10)
  | 3 => sinceGate 0
  | 4 => sinceGate 290

/-- The first replica has a session at all its three steps, and the other one retires the
root ten seconds after the second of them. -/
theorem a_root_is_retired_under_a_session_when_the_gate_opens :
    ∃ c w v, PunctualRun smallKit (sinceGate (-400)) outgoing twoReplicas gateInstants gateRun c ∧
      (∀ l ∈ gateRun, l.1 = 0 ∨ l.1 = 2 ∨ l.1 = 4 → l.2.holdouts = 1) ∧
      gateInstants 2 = gateInstants 0 + defaults.pollInterval ∧
      gateInstants 4 = gateInstants 2 + defaults.pollInterval ∧
      gateInstants 3 = gateInstants 1 + defaults.pollInterval ∧
      c.shared.2 = [w, v] ∧ w.note.committed = gateInstants 3 ∧
      gateInstants 2 < w.note.committed ∧ w.note.committed < gateInstants 4 ∧
      (readCARotation smallKit v.secret).phase = .signing ∧
      (readCARotation smallKit v.secret).prevCertPEM = [100] ∧
      (readCARotation smallKit w.secret).phase = .steady ∧
      (readCARotation smallKit w.secret).prevCertPEM = [] := by
  exact ⟨_, _, _, ⟨by decide, by decide, rfl⟩, by decide, by decide, by decide, by decide, rfl, rfl,
    by decide, by decide, rfl, rfl, rfl, rfl⟩

/-- Both replicas poll after the gate has opened, twice each. -/
def vetoRun : List (Fin 5 × RotEnv) :=
  pollAt 100 1 5 0 ++ pollAt 200 0 3 1 ++ pollAt 400 1 5 2 ++ pollAt 500 0 3 3

def vetoInstants : Fin 5 → Int
  | 0 => sinceGate 100
  | 1 => sinceGate 200
  | 2 => sinceGate 400
  | 3 => sinceGate 500
  | 4 => sinceGate 700

/-- The two records of the first replica stop the other one, which has no session. -/
theorem a_reported_session_keeps_its_root_from_the_other_replica :
    ∃ c new, PunctualRun smallKit (sinceGate 0) outgoing twoReplicas vetoInstants vetoRun c ∧
      c.shared.2 = new ++ [⟨outgoing, ⟨.other, sinceGate 0⟩⟩] ∧ new.length = 2 ∧
      ∀ w ∈ new, (readCARotation smallKit w.secret).phase = .signing ∧
        (readCARotation smallKit w.secret).prevCertPEM = [100] := by
  obtain ⟨c, new, hrun, hnew, hlen, hdates, hfirst, hsecond⟩ : ∃ c new, run (rotMachine smallKit)
        (system smallKit (sinceGate 0) outgoing fun i => .poll (twoReplicas i)) vetoRun = some c ∧
      c.shared.2 = new ++ [⟨outgoing, ⟨.other, sinceGate 0⟩⟩] ∧ new.length = 2 ∧
      (∀ w ∈ new, (readCARotation smallKit w.secret).phase = .signing ∧
        w.note.committed ≤ sinceGate 400) ∧
      (c.thread 0).result = some () ∧ (c.thread 2).result = some () :=
    ⟨_, [_, _], rfl, rfl, rfl, by decide +kernel, rfl, rfl⟩
  have hpunctual : PunctualRun smallKit (sinceGate 0) outgoing twoReplicas vetoInstants vetoRun c :=
    ⟨by decide, by decide, hrun⟩
  refine ⟨c, new, hpunctual, hnew, hlen, fun w hw => ?_⟩
  refine a_reported_session_keeps_its_root smallKit smallKit_lawful (300 * second)
    ⟨by decide, by decide, by decide⟩ twoReplicas (fun _ => rfl) (sinceGate 0) outgoing
    vetoInstants vetoRun c hpunctual (fun k => if k = 0 then 0 else 2) 1 (by decide) (by decide)
    (by decide) ?_ ?_ _ [] new ⟨_, rfl, rfl⟩ hnew (fun w hw _ => (hdates w hw).1) w hw
    (le_trans (hdates w hw).2 (by decide))
  · intro k hk
    rcases Nat.le_one_iff_eq_zero_or_eq_one.mp hk with rfl | rfl
    · exact Prog.result_eq_some.mp hfirst
    · exact Prog.result_eq_some.mp hsecond
  · intro k hk
    refine any_eq_true.mp ?_
    rcases Nat.le_one_iff_eq_zero_or_eq_one.mp hk with rfl | rfl <;> decide +kernel

end prom_fleet.rotation
