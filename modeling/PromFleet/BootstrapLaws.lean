-- The law of the bootstrap: when no replica that found the CA Secret incomplete
-- is overtaken by another one, every replica that comes up has the CA and the
-- pepper of the Secret. If one is overtaken, it keeps a pepper of its own.
import PromFleet.Bootstrap

namespace prom_fleet.hub

open interleave kube List Option

/-! ## Fields -/

variable (acc : StrMap Bytes × List String)

theorem field_fillField (kv : String × Bytes) (k : String) :
    ((fillField acc kv).1.lookup k).getD [] =
      if k = kv.1 ∧ (acc.1.lookup k).getD [] = [] then kv.2 else (acc.1.lookup k).getD [] := by
  unfold fillField
  by_cases hk : k = kv.1
  · subst hk
    by_cases he : (acc.1.lookup kv.1).getD [] = [] <;> simp [he]
  · by_cases he : (acc.1.lookup kv.1).getD [] = [] <;>
      simp [he, hk, Finmap.lookup_insert_of_ne _ hk]

theorem keys_ne : secretKeyCACert ≠ secretKeyCAKey ∧ secretKeyCACert ≠ secretKeyPepper ∧
    secretKeyCAKey ≠ secretKeyPepper := by decide

variable (sec : Secret Bytes)

/-- The three fields of the Secret are these. -/
def Has (cert key pepper : Bytes) : Prop :=
  field secretKeyCACert sec = cert ∧ field secretKeyCAKey sec = key ∧
    field secretKeyPepper sec = pepper

/-- The value, or the other one in its place if it is empty. -/
def orElse (value other : Bytes) : Bytes := if value = [] then other else value

variable (sec : Secret Bytes)

theorem has_fill (cert key pepper : Bytes) :
    Has { sec with data := (fill sec.data (generatedData cert key pepper)).1 }
      (orElse (field secretKeyCACert sec) cert) (orElse (field secretKeyCAKey sec) key)
      (orElse (field secretKeyPepper sec) pepper) := by
  obtain ⟨h1, h2, h3⟩ := keys_ne
  simp only [Has, field, fill, generatedData, foldl_cons, foldl_nil, field_fillField,
    orElse, h1, h2, h3, h1.symm, h2.symm, h3.symm, false_and, true_and, if_false]
  refine ⟨?_, ?_, ?_⟩ <;> congr

theorem fillField_snd (kv : String × Bytes) :
    (fillField acc kv).2 = [] ↔ (acc.1.lookup kv.1).getD [] ≠ [] ∧ acc.2 = [] := by
  unfold fillField
  split
  · rename_i he
    simp [isEmpty_iff.mp he]
  · rename_i he
    simp [List.isEmpty_iff] at he
    simp [he]

theorem fill_snd (cert key pepper : Bytes) :
    (fill sec.data (generatedData cert key pepper)).2 = [] ↔
      field secretKeyCACert sec ≠ [] ∧ field secretKeyCAKey sec ≠ [] ∧
        field secretKeyPepper sec ≠ [] := by
  obtain ⟨h1, h2, h3⟩ := keys_ne
  simp only [field, fill, generatedData, foldl_cons, foldl_nil, fillField_snd,
    field_fillField, h1.symm, h2.symm, h3.symm, false_and, if_false, and_true]
  tauto

/-! ## What the replicas owe each other -/

/-- No field is set. -/
def Bare : Prop := Has sec [] [] []

/-- Every field is set. -/
def Full : Prop :=
  ∃ cert key pepper, Has sec cert key pepper ∧ cert ≠ [] ∧ key ≠ [] ∧ pepper ≠ []

/-- A field that is set stays as it is. -/
def Fixes (sec sec' : Secret Bytes) : Prop :=
  (field secretKeyCACert sec ≠ [] → field secretKeyCACert sec' = field secretKeyCACert sec) ∧
  (field secretKeyCAKey sec ≠ [] → field secretKeyCAKey sec' = field secretKeyCAKey sec) ∧
  (field secretKeyPepper sec ≠ [] → field secretKeyPepper sec' = field secretKeyPepper sec)

theorem Fixes.refl : Fixes sec sec :=
  ⟨fun _ => rfl, fun _ => rfl, fun _ => rfl⟩

theorem kept_trans {a b c : Bytes} (h : a ≠ [] → b = a) (h' : b ≠ [] → c = b) (ha : a ≠ []) :
    c = a := by
  obtain rfl := h ha
  exact h' ha

theorem Fixes.trans {a b c : Secret Bytes} (h : Fixes a b) (h' : Fixes b c) : Fixes a c :=
  ⟨kept_trans h.1 h'.1, kept_trans h.2.1 h'.2.1, kept_trans h.2.2 h'.2.2⟩

theorem fixes_fill (cert key pepper : Bytes) :
    Fixes sec { sec with data := (fill sec.data (generatedData cert key pepper)).1 } := by
  obtain ⟨h1, h2, h3⟩ := has_fill sec cert key pepper
  refine ⟨fun h => ?_, fun h => ?_, fun h => ?_⟩
  · rw [h1, orElse, if_neg h]
  · rw [h2, orElse, if_neg h]
  · rw [h3, orElse, if_neg h]

/-- The versions grow, and the fields of the Secret that are set stay. -/
def Evolves (s t : Server) : Prop :=
  s <:+ t ∧ ∀ sec, current s = some sec → ∃ sec', current t = some sec' ∧ Fixes sec sec'

theorem Evolves.refl (s : Server) : Evolves s s :=
  ⟨suffix_refl s, fun sec h => ⟨sec, h, Fixes.refl sec⟩⟩

variable {s : Server}

theorem Evolves.trans {t u : Server} (h : Evolves s t) (h' : Evolves t u) : Evolves s u := by
  refine ⟨h.1.trans h'.1, fun sec hs => ?_⟩
  obtain ⟨sec', hs', hf⟩ := h.2 sec hs
  obtain ⟨sec'', hs'', hf'⟩ := h'.2 sec' hs'
  exact ⟨sec'', hs'', hf.trans hf'⟩

/-- `bare` tells whether the run started without any field. Such a run goes from
no field to all of them in one step, and any other run always has a field. -/
structure Sound (bare : Prop) (s : Server) : Prop where
  ordered : Ordered s
  born : s = [] → bare
  kind : ∀ sec, Stored sec s → bare ∧ Bare sec ∨ Full sec ∨ ¬ bare ∧ ¬ Bare sec

/-- The replicas keep the versions sound, in runs whose steps meet `C`. -/
def bootPact {ι : Type} (bare : Prop) (C : ι → BootOp → BootEnv → Server → Prop) :
    Pact BootOp ι BootEnv Server where
  inv := Sound bare
  cond := C
  rely _ := Evolves
  guar _ := Evolves
  rely_refl _ := Evolves.refl
  rely_trans _ _ _ _ := Evolves.trans
  rely_of_guar _ _ _ _ _ _ _ h := h

/-- The step of replica `i` keeps the pact, and what it says holds if it succeeds. -/
abbrev Boots {ι α : Type} (P : Packages) (bare : Prop) (C : ι → BootOp → BootEnv → Server → Prop)
    (i : ι) := Succeeds (α := α) (φ := PrepareErr) (bootMachine P) (bootPact bare C) i

/-- A replica creates a full Secret, and updates one by filling it in. -/
def Lawful (o : BootOp) (s : Server) : Prop :=
  match o with
  | .createSecret sec => Full sec
  | .updateSecret sec => Full sec ∧
      ∃ old, Stored old s ∧ sec.resourceVersion = old.resourceVersion ∧ Fixes old sec
  | _ => True

variable {bare : Prop}

variable (hs : Sound bare s)

include hs

theorem sound_push {v : Version Bytes Unit} (ho : Ordered (v :: s))
    (hf : Full v.secret) (hfix : ∀ cur, current s = some cur → Fixes cur v.secret) :
    Sound bare (v :: s) ∧ Evolves s (v :: s) := by
  refine ⟨⟨ho, fun h => (by cases h), fun sec hsec => ?_⟩, suffix_cons v s, fun sec h => ?_⟩
  · obtain ⟨w, hw, rfl⟩ := hsec
    rcases mem_cons.mp hw with rfl | hw
    · exact .inr (.inl hf)
    · exact hs.kind _ ⟨w, hw, rfl⟩
  · exact ⟨v.secret, rfl, hfix sec h⟩

variable {s' : Server} {x : Except Err (Secret Bytes)}

/-- What a create or an update does to the versions. -/
theorem sound_request {f : Fault} {r : Except Err (Secret Bytes) × Server}
    (hr : Sound bare r.2 ∧ Evolves s r.2) (h : deliver f s r = (x, s')) :
    Sound bare s' ∧ Evolves s s' :=
  deliver_keeps (P := fun s' => Sound bare s' ∧ Evolves s s') ⟨hs, Evolves.refl s⟩ hr h

variable {gap : Nat} {sec : Secret Bytes}

theorem sound_createSecret (hf : Full sec)
    (h : kube.createSecret gap () sec s = (x, s')) : Sound bare s' ∧ Evolves s s' := by
  rcases createSecret_cases h with ⟨rfl, _⟩ | ⟨hcur, stored, rfl, _, rfl⟩
  · exact ⟨hs, Evolves.refl _⟩
  obtain rfl := current_eq_none hcur
  exact sound_push hs (ordered_nil.push (Nat.succ_pos _) fun cur h => by cases h) hf
    fun cur h => by cases h

theorem sound_updateSecret {old : Secret Bytes} (hf : Full sec)
    (hold : Stored old s) (hrv : sec.resourceVersion = old.resourceVersion) (hfix : Fixes old sec)
    (h : kube.updateSecret gap () sec s = (x, s')) : Sound bare s' ∧ Evolves s s' := by
  rcases updateSecret_cases h with ⟨rfl, _⟩ | ⟨cur, stored, hcur, hv, rfl, _, rfl⟩
  · exact ⟨hs, Evolves.refl _⟩
  obtain rfl := hs.ordered.eq_current hold hcur (by omega)
  refine sound_push hs (hs.ordered.push (Nat.succ_pos _) fun cur' h => ?_) hf fun cur' h => ?_
  · rw [hcur] at h
    cases h
    simp only
    omega
  · rw [hcur] at h
    cases h
    exact hfix

omit hs

/-- Every lawful operation keeps the versions sound and lets them evolve. -/
theorem bootAct_sound (P : Packages) {o : BootOp} {e : BootEnv} (hs : Sound bare s)
    (hl : Lawful o s) : Sound bare (bootAct P o e s).2 ∧ Evolves s (bootAct P o e s).2 := by
  cases o with
  | createSecret sec => exact sound_request hs (sound_createSecret hs hl rfl) rfl
  | updateSecret sec =>
    obtain ⟨hf, old, hold, hrv, hfix⟩ := hl
    exact sound_request hs (sound_updateSecret hs hf hold hrv hfix rfl) rfl
  | _ => exact ⟨hs, Evolves.refl s⟩

/-! ## The local steps -/

section Specs

variable {ι : Type} {P : Packages} {bare : Prop} {C : ι → BootOp → BootEnv → Server → Prop} {i : ι}
  {s : Server} {o : BootOp}

theorem perform_spec {Q : BootAns o → Server → Prop} (hl : ∀ t, Evolves s t → Lawful o t)
    (hq : ∀ t e v, Evolves s t → Sound bare t → C i o e t → Evolves (bootAct P o e t).2 v →
      Sound bare v → Q (bootAct P o e t).1 v) : Boots P bare C i (perform o) Q s := by
  refine .lift fun t ht hs e he a u hact => ?_
  have hact' : bootAct P o e t = (a, u) := Option.some.inj hact
  obtain ⟨rfl, rfl⟩ : (bootAct P o e t).1 = a ∧ (bootAct P o e t).2 = u := by simp [hact']
  obtain ⟨hsound, hevolves⟩ := bootAct_sound P (e := e) hs (hl t ht)
  exact ⟨hsound, hevolves, fun v hv hv' => hq t e v ht hs he hv hv'⟩

theorem perform_local (Q : BootAns o → Server → Prop) (hl : ∀ t, Lawful o t)
    (hq : ∀ t e v, Q (bootAct P o e t).1 v) : Boots P bare C i (perform o) Q s :=
  perform_spec (fun t _ => hl t) fun t e v _ _ _ _ _ => hq t e v

theorem disk_spec (hs : Sound bare s) : Boots P bare C i disk (fun _ _ => True) s := by
  refine .bind hs (perform_local _ (fun _ => trivial) fun t e v => ?_)
  split
  · exact .pure fun _ _ _ => trivial
  · exact .throw _ _ _

theorem materialise_spec (hs : Sound bare s) (m : CaMaterial) (f : Files) :
    Boots P bare C i (materialise m f) (fun f' _ => f' = f.adopt m) s := by
  refine (disk_spec hs).seq hs fun _ t _ _ => ?_
  exact .pure fun _ _ _ => rfl

theorem readTrustBundle_spec (hs : Sound bare s) (bundle : Option Bytes) :
    Boots P bare C i (readTrustBundle P bundle) (fun _ _ => True) s := by
  cases bundle with
  | none => exact .pure fun _ _ _ => trivial
  | some pem =>
    refine (disk_spec hs).seq hs fun _ t _ _ => ?_
    split
    · exact .pure fun _ _ _ => trivial
    · exact .throw _ _ _

theorem loadCA_spec (hs : Sound bare s) (roots : Bytes) (f : Files) :
    Boots P bare C i (loadCA P roots f)
      (fun a _ => f.cert = some a.certPEM ∧ f.key = some a.keyPEM) s := by
  refine (disk_spec hs).seq hs fun _ t _ _ => ?_
  split
  · rename_i cert key hcert hkey
    split
    · exact .pure fun _ _ _ => ⟨hcert, hkey⟩
    · exact .throw _ _ _
  · exact .throw _ _ _

/-- The CA is the one of the files, or a new one if the files had none. -/
theorem loadOrCreate_spec (hs : Sound bare s) (roots : Bytes) (f : Files) :
    Boots P bare C i (loadOrCreate P roots f)
      (fun r _ => r.1.cert = some r.2.certPEM ∧ r.1.key = some r.2.keyPEM ∧ r.1.pepper = f.pepper ∧
        (f.cert = none ∧ f.key = none ∧ r.2.certPEM ≠ [] ∧ r.2.keyPEM ≠ [] ∨ r.1 = f)) s := by
  unfold loadOrCreate
  split
  · rename_i hcert hkey
    refine (disk_spec hs).seq hs fun _ t ht _ => ?_
    split
    · exact .throw _ _ _
    refine .bind ht (perform_local _ (fun _ => trivial) fun t e v => ?_)
    cases hseed : e.seed with
    | none =>
      simp only [bootAct, hseed, map_none]
      exact .throw _ _ _
    | some seed =>
      simp only [bootAct, hseed, map_some]
      obtain ⟨hc, hk⟩ := P.mintRoot_ne seed
      exact .pure fun _ _ _ => ⟨rfl, rfl, rfl, .inl ⟨hcert, hkey, hc, hk⟩⟩
  · refine (loadCA_spec hs roots f).seq hs fun a t _ ha => ?_
    exact .pure fun _ _ _ => ⟨ha.1, ha.2, rfl, .inr rfl⟩

/-- The pepper is the one of the files, or a new one if the files had none. -/
theorem loadPepper_spec (hs : Sound bare s) (f : Files) : Boots P bare C i (loadPepper f)
      (fun r _ => r.1.cert = f.cert ∧ r.1.key = f.key ∧ r.1.pepper = some r.2 ∧ r.2 ≠ [] ∧
        (f.pepper = none ∨ f.pepper = some r.2)) s := by
  refine (disk_spec hs).seq hs fun _ t ht _ => ?_
  split
  · rename_i p hp
    split
    · exact .throw _ _ _
    rename_i hlen
    refine .pure fun _ _ _ => ⟨rfl, rfl, hp, ?_, .inr hp⟩
    rintro rfl
    exact hlen (by decide)
  · rename_i hp
    refine .bind ht (perform_local _ (fun _ => trivial) fun t e v => ?_)
    cases hseed : e.seed with
    | none =>
      simp only [bootAct, hseed, map_none]
      exact .throw _ _ _
    | some seed =>
      simp only [bootAct, hseed, map_some]
      refine .pure fun _ _ _ => ⟨rfl, rfl, rfl, fun h => ?_, .inl hp⟩
      have hlen := P.generatePepper_length seed
      have hnil : P.generatePepper seed = [] := h
      rw [hnil] at hlen
      cases hlen

/-! ## The steps at the server -/

/-- The material is in the Secret, as far as it is set. -/
def Covers (m : CaMaterial) (cur : Secret Bytes) : Prop :=
  (m.certPEM ≠ [] → field secretKeyCACert cur = m.certPEM) ∧
  (m.keyPEM ≠ [] → field secretKeyCAKey cur = m.keyPEM) ∧
  (m.pepper ≠ [] → field secretKeyPepper cur = m.pepper)

/-- What is known of material that was read from the Secret. -/
structure Known (bare : Prop) (m : CaMaterial) (t : Server) : Prop where
  born : m.empty = true → bare
  whole : bare → m.empty = false → m.complete = true
  covers : m.empty = false → ∃ cur, current t = some cur ∧ Covers m cur

/-- The Secret has these fields, and none of them is empty. -/
def Published (cert key pepper : Bytes) (t : Server) : Prop :=
  cert ≠ [] ∧ key ≠ [] ∧ pepper ≠ [] ∧ ∃ cur, current t = some cur ∧ Has cur cert key pepper

variable {cur : Secret Bytes} {m : CaMaterial}

theorem Covers.fixes {cur' : Secret Bytes} (h : Covers m cur) (hf : Fixes cur cur') :
    Covers m cur' :=
  ⟨kept_trans h.1 hf.1, kept_trans h.2.1 hf.2.1, kept_trans h.2.2 hf.2.2⟩

variable {t u : Server}

theorem Known.evolves (ht : Evolves t u) (h : Known bare m t) : Known bare m u := by
  refine ⟨h.born, h.whole, fun hm => ?_⟩
  obtain ⟨cur, hcur, hcov⟩ := h.covers hm
  obtain ⟨cur', hcur', hfix⟩ := ht.2 cur hcur
  exact ⟨cur', hcur', hcov.fixes hfix⟩

variable {cert key pepper : Bytes}

theorem Published.evolves (ht : Evolves t u) (h : Published cert key pepper t) :
    Published cert key pepper u := by
  obtain ⟨hc, hk, hp, cur, hcur, h1, h2, h3⟩ := h
  obtain ⟨cur', hcur', hfix⟩ := ht.2 cur hcur
  exact ⟨hc, hk, hp, cur', hcur', kept_trans (fun _ => h1) hfix.1 hc,
    kept_trans (fun _ => h2) hfix.2.1 hk, kept_trans (fun _ => h3) hfix.2.2 hp⟩

theorem materialOf_empty (P : Packages) (sec : Secret Bytes) :
    (materialOf P sec).empty = true ↔ Bare sec := by
  simp [CaMaterial.empty, materialOf, Bare, Has, List.isEmpty_iff, and_assoc]

theorem materialOf_complete (P : Packages) (sec : Secret Bytes) :
    (materialOf P sec).complete = true ↔ Full sec := by
  constructor
  · intro h
    simp only [CaMaterial.complete, materialOf, Bool.and_eq_true, Bool.not_eq_true',
      isEmpty_eq_false_iff] at h
    exact ⟨_, _, _, ⟨rfl, rfl, rfl⟩, h.1.1, h.1.2, h.2⟩
  · rintro ⟨cert, key, pepper, ⟨rfl, rfl, rfl⟩, hc, hk, hp⟩
    simp [CaMaterial.complete, materialOf, isEmpty_eq_false_iff, hc, hk, hp]

variable {sec : Secret Bytes}

theorem known_current (hs : Sound bare t) (hcur : current t = some sec) :
    Known bare (materialOf P sec) t := by
  have hkind := hs.kind sec (stored_current hcur)
  refine ⟨fun h => ?_, fun hb h => ?_, fun _ => ⟨sec, hcur, Fixes.refl sec⟩⟩
  · have hbare := (materialOf_empty P sec).mp h
    rcases hkind with ⟨hb, _⟩ | hfull | ⟨_, hn⟩
    · exact hb
    · obtain ⟨cert, key, pepper, hhas, hc, _⟩ := hfull
      exact absurd (hhas.1.symm.trans hbare.1) hc
    · exact absurd hbare hn
  · have hn : ¬ Bare sec := fun hbare => by
      rw [(materialOf_empty P sec).mpr hbare] at h
      cases h
    rcases hkind with ⟨_, hbare⟩ | hfull | ⟨hnb, _⟩
    · exact absurd hbare hn
    · exact (materialOf_complete P sec).mpr hfull
    · exact absurd hb hnb

theorem getSecret_answer (before : Option CaMaterial) (e : BootEnv) (t : Server) :
    (∃ sec, (bootAct P (.getSecret before) e t).1 = .ok sec ∧ current t = some sec) ∨
      ((bootAct P (.getSecret before) e t).1 = .error .notFound ∧ t = []) ∨
      (bootAct P (.getSecret before) e t).1 = .error .other := by
  cases hf : e.fault with
  | delivered =>
    cases hc : current t with
    | none =>
      exact .inr (.inl ⟨by simp [bootAct, hf, deliver, kube.getSecret, hc], current_eq_none hc⟩)
    | some sec => exact .inl ⟨sec, by simp [bootAct, hf, deliver, kube.getSecret, hc], rfl⟩
  | lost | dropped => exact .inr (.inr (by simp [bootAct, hf, deliver]))

theorem load_spec (hs : Sound bare s) : Boots P bare C i (load P) (Known bare) s := by
  refine .bind hs (perform_spec (fun _ _ => trivial) fun t e v _ ht _ hv _ => ?_)
  have htv : Evolves t v := hv
  rcases getSecret_answer (P := P) none e t with ⟨sec, ha, hcur⟩ | ⟨ha, rfl⟩ | ha
  · rw [ha]
    exact .pure fun u hu _ => (known_current ht hcur).evolves (htv.trans hu)
  · rw [ha]
    refine .pure fun u hu _ => ⟨fun _ => ht.born rfl, fun _ h => ?_, fun h => ?_⟩
    · cases h
    · cases h
  · rw [ha]
    exact .throw _ _ _

/-- A field that the replica found missing is still missing. -/
def stillMissing (m : CaMaterial) (cur : Secret Bytes) : Bool :=
  (!m.certPEM.isEmpty || (field secretKeyCACert cur).isEmpty) &&
    (!m.keyPEM.isEmpty || (field secretKeyCAKey cur).isEmpty) &&
    (!m.pepper.isEmpty || (field secretKeyPepper cur).isEmpty)

/-- The step does not show that another replica was faster: what a replica found missing is still
missing when it completes the Secret, and no update is answered with a conflict. -/
def undisturbed (o : BootOp) (e : BootEnv) (s : Server) : Bool :=
  match o with
  | .getSecret (some m) =>
    match current s with
    | none => true
    | some cur => stillMissing m cur
  | .updateSecret sec =>
    match (deliver e.fault s (kube.updateSecret e.gap () sec s)).1 with
    | .error .conflict => false
    | _ => true
  | _ => true

/-- What is set of the material is what the replica goes on with. -/
def Agrees (m : CaMaterial) (cert key pepper : Bytes) : Prop :=
  (m.certPEM ≠ [] → cert = m.certPEM) ∧ (m.keyPEM ≠ [] → key = m.keyPEM) ∧
    (m.pepper ≠ [] → pepper = m.pepper)

variable {own : Bytes}

/-- A field of the Secret is the one the replica goes on with, or it is missing
where the replica found it missing. -/
theorem fill_field {value cur : Bytes} (hcov : value ≠ [] → cur = value)
    (hmiss : (!value.isEmpty || cur.isEmpty) = true) (hag : value ≠ [] → own = value) :
    orElse cur own = own := by
  unfold orElse
  by_cases hv : value = []
  · have hcur : cur = [] := by simpa [hv] using hmiss
    rw [if_pos hcur]
  · rw [hcov hv, hag hv]
    split <;> simp [*]

theorem has_completed (hcov : Covers m cur) (hmiss : stillMissing m cur = true)
    (hag : Agrees m cert key pepper) :
    Has { cur with data := (fill cur.data (generatedData cert key pepper)).1 } cert key pepper := by
  simp only [stillMissing, Bool.and_eq_true] at hmiss
  obtain ⟨h1, h2, h3⟩ := has_fill cur cert key pepper
  rw [fill_field hcov.1 hmiss.1.1 hag.1] at h1
  rw [fill_field hcov.2.1 hmiss.1.2 hag.2.1] at h2
  rw [fill_field hcov.2.2 hmiss.2 hag.2.2] at h3
  exact ⟨h1, h2, h3⟩

theorem fills_missing (hmiss : stillMissing m cur = true) (hm : m.complete = false) :
    (fill cur.data (generatedData cert key pepper)).2 ≠ [] := by
  rw [Ne, fill_snd]
  rintro ⟨hc, hk, hp⟩
  have hfull : m.complete = true := by
    simp only [stillMissing, Bool.and_eq_true, Bool.or_eq_true, List.isEmpty_iff, hc, hk, hp,
      or_false] at hmiss
    simp only [CaMaterial.complete, Bool.and_eq_true]
    exact hmiss
  rw [hm] at hfull
  cases hfull

variable {e : BootEnv} {x : Secret Bytes}

theorem updateSecret_answer (h : (bootAct P (.updateSecret sec) e t).1 = .ok x) :
    current (bootAct P (.updateSecret sec) e t).2 = some x ∧ x.data = sec.data := by
  cases hd : bootAct P (.updateSecret sec) e t with
  | mk y u =>
    rw [hd] at h
    cases h
    rcases deliver_cases hd with hr | ⟨hr, _⟩
    · rcases updateSecret_cases hr.symm with ⟨_, er, he⟩ | ⟨_, stored, _, _, hst, he, rfl⟩
      · cases he
      · cases he
        rw [hst]
        exact ⟨rfl, rfl⟩
    · cases hr

theorem createSecret_answer (h : (bootAct P (.createSecret sec) e t).1 = .ok x) :
    current (bootAct P (.createSecret sec) e t).2 = some x ∧ x.data = sec.data := by
  cases hd : bootAct P (.createSecret sec) e t with
  | mk y u =>
    rw [hd] at h
    cases h
    rcases deliver_cases hd with hr | ⟨hr, _⟩
    · rcases createSecret_cases hr.symm with ⟨_, he⟩ | ⟨_, stored, hst, he, rfl⟩
      · cases he
      · cases he
        rw [hst]
        exact ⟨rfl, rfl⟩
    · cases hr

theorem has_congr {sec' : Secret Bytes} (h : sec'.data = sec.data)
    (hhas : Has sec cert key pepper) : Has sec' cert key pepper := by
  unfold Has field at *
  rw [h]
  exact hhas

theorem complete_spec (hC : ∀ i o e s, C i o e s → undisturbed o e s = true) (hs : Sound bare s)
    (hk : Known bare m s) (hne : m.empty = false) (hnc : m.complete = false) (hcert : cert ≠ [])
    (hkey : key ≠ []) (hpepper : pepper ≠ []) (hag : Agrees m cert key pepper) :
    Boots P bare C i (complete m (generatedData cert key pepper))
      (fun adopted t => adopted = false ∧ Published cert key pepper t) s := by
  refine .bind hs (perform_spec (fun _ _ => trivial) fun t e v hst ht hc hv hsv => ?_)
  have htv : Evolves t v := hv
  rcases getSecret_answer (P := P) (some m) e t with ⟨sec, ha, hcur⟩ | ⟨ha, _⟩ | ha
  · have hmiss : stillMissing m sec = true := by
      have := hC _ _ _ _ hc
      simpa only [undisturbed, hcur] using this
    obtain ⟨cur, hcur', hcov⟩ := (hk.evolves hst).covers hne
    rw [hcur] at hcur'
    cases hcur'
    have hhas := has_completed hcov hmiss hag
    rw [ha]
    simp only
    split
    · rename_i hnone
      exact absurd (isEmpty_iff.mp hnone) (fills_missing hmiss hnc)
    refine .bind hsv (perform_spec (fun u hu => ?_) fun u e' v' hu _ hc' hv' _ => ?_)
    · exact ⟨⟨cert, key, pepper, hhas, hcert, hkey, hpepper⟩, sec,
        (stored_current hcur).mono (htv.trans hu).1, rfl, fixes_fill sec cert key pepper⟩
    cases hb : (bootAct P (.updateSecret { sec with
        data := (fill sec.data (generatedData cert key pepper)).1 }) e' u).1 with
    | ok x =>
      obtain ⟨hx, hdata⟩ := updateSecret_answer hb
      refine .pure fun w hw _ => ⟨rfl, ?_⟩
      refine .evolves (hv'.trans hw) ?_
      exact ⟨hcert, hkey, hpepper, x, hx, has_congr hdata hhas⟩
    | error er =>
      have hund := hC _ _ _ _ hc'
      cases er with
      | conflict =>
        have hb' : (deliver e'.fault u (kube.updateSecret e'.gap () { sec with
          data := (fill sec.data (generatedData cert key pepper)).1 } u)).1 =
            .error .conflict := hb
        simp [undisturbed, hb'] at hund
      | _ => exact .throw _ _ _
  · rw [ha]
    exact .throw _ _ _
  · rw [ha]
    exact .throw _ _ _

def Files.Hold (f : Files) (cert key pepper : Bytes) : Prop :=
  f.cert = some cert ∧ f.key = some key ∧ f.pepper = some pepper

theorem has_firstSecret (cert key pepper : Bytes) :
    Has (firstSecret cert key pepper) cert key pepper :=
  has_fill { resourceVersion := 0, data := ∅, labels := bootLabels, annotations := ∅ } cert key
    pepper

/-- Adopting complete material leaves nothing of what was there. -/
theorem hold_adopt (h : m.complete = true) (f : Files) :
    (f.adopt m).Hold m.certPEM m.keyPEM m.pepper := by
  simp only [CaMaterial.complete, Bool.and_eq_true, Bool.not_eq_true'] at h
  simp [Files.Hold, Files.adopt, overwrite, h.1.1, h.1.2, h.2]

theorem published_of_known (hk : Known bare m t) (hm : m.complete = true) :
    Published m.certPEM m.keyPEM m.pepper t := by
  have hparts : m.certPEM ≠ [] ∧ m.keyPEM ≠ [] ∧ m.pepper ≠ [] := by
    simpa [CaMaterial.complete, isEmpty_eq_false_iff, and_assoc] using hm
  have hne : m.empty = false := by
    simp [CaMaterial.empty, isEmpty_eq_false_iff, hparts.1]
  obtain ⟨cur, hcur, hcov⟩ := hk.covers hne
  exact ⟨hparts.1, hparts.2.1, hparts.2.2, cur, hcur, hcov.1 hparts.1, hcov.2.1 hparts.2.1,
    hcov.2.2 hparts.2.2⟩

/-- After `persist` the files hold what the Secret holds. If they are not those
of another replica, they are as they were. -/
theorem persist_spec (hC : ∀ i o e s, C i o e s → undisturbed o e s = true) (hs : Sound bare s)
    {f : Files} (hk : Known bare m s) (hf : f.Hold cert key pepper) (hcert : cert ≠ [])
    (hkey : key ≠ []) (hpepper : pepper ≠ []) (hag : Agrees m cert key pepper) :
    Boots P bare C i (persist P m f pepper)
      (fun r t => ∃ c k p, r.1.Hold c k p ∧ Published c k p t ∧ (r.2 = false → r.1 = f)) s := by
  unfold persist
  split
  · rename_i hm
    refine .pure fun t ht _ => ⟨cert, key, pepper, hf, ?_, fun _ => rfl⟩
    have hpub := published_of_known (hk.evolves ht) hm
    obtain ⟨hc, hk', hp, _⟩ := id hpub
    rw [hag.1 hc, hag.2.1 hk', hag.2.2 hp]
    exact hpub
  · rename_i hm
    refine (Succeeds.frame (F := Known bare m) (fun _ _ => Known.evolves)
      (fun _ _ => Known.evolves) hk (disk_spec hs)).seq hs fun _ t ht hd => ?_
    obtain ⟨_, hk'⟩ := hd
    simp only [hf.1, hf.2.1]
    split
    · rename_i hne
      refine (complete_spec hC ht hk' (by simpa using hne) (by simpa using hm)
        hcert hkey hpepper hag).seq ht fun adopted u _ hu => ?_
      exact .pure fun v hv _ =>
        ⟨cert, key, pepper, hf, hu.2.evolves hv, fun _ => rfl⟩
    · rename_i hempty
      have hbare : bare := hk.born (by simpa using hempty)
      refine .bind ht (perform_spec (fun u _ => ?_) fun u e v hu hsu _ hv hsv => ?_)
      · exact ⟨cert, key, pepper, has_firstSecret cert key pepper, hcert, hkey, hpepper⟩
      cases hb : (bootAct P (.createSecret (firstSecret cert key pepper)) e u).1 with
      | ok x =>
        obtain ⟨hx, hdata⟩ := createSecret_answer hb
        refine .pure fun w hw _ => ⟨cert, key, pepper, hf, ?_, fun _ => rfl⟩
        refine .evolves (hv.trans hw) ?_
        exact ⟨hcert, hkey, hpepper, x, hx, has_congr hdata (has_firstSecret cert key pepper)⟩
      | error er =>
        cases er with
        | alreadyExists =>
          refine (load_spec hsv).seq hsv fun winner w hw hwin => ?_
          split
          · exact .throw _ _ _
          rename_i hne
          have hfull := hwin.whole hbare (by simpa using hne)
          refine (Succeeds.frame
            (fun _ _ => Known.evolves) (fun _ _ => Known.evolves) hwin
            (materialise_spec hw winner f)).seq hw fun f' x _ hx => ?_
          obtain ⟨rfl, hwin'⟩ := hx
          exact .pure fun y hy _ => ⟨_, _, _, hold_adopt hfull f,
            published_of_known (hwin'.evolves hy) hfull, fun h => by cases h⟩
        | _ => exact .throw _ _ _

/-- The files after the material of the Secret was adopted into an empty
directory, and after the missing parts were generated, agree with the Secret. -/
theorem agrees_of_adopted (hca : overwrite none m.certPEM = none ∧ overwrite none m.keyPEM = none ∨
      overwrite none m.certPEM = some cert ∧ overwrite none m.keyPEM = some key)
    (hpe : overwrite none m.pepper = none ∨ overwrite none m.pepper = some pepper) :
    Agrees m cert key pepper := by
  have hset : ∀ {data own : Bytes}, data ≠ [] →
      (overwrite none data = none ∨ overwrite none data = some own) → own = data := by
    intro data own hne h
    rw [overwrite, if_neg (by simpa [List.isEmpty_iff] using hne)] at h
    rcases h with h | h <;> cases h
    rfl
  refine ⟨fun h => ?_, fun h => ?_, fun h => hset h hpe⟩
  · exact hset h (hca.imp And.left And.left)
  · exact hset h (hca.imp And.right And.right)

theorem adopted_ne {data : Bytes} (h : overwrite none data = some own) : own ≠ [] := by
  unfold overwrite at h
  split at h
  · cases h
  rename_i hne
  cases h
  simpa [List.isEmpty_iff] using hne

/-- An undisturbed `prepare` ends with what the Secret holds. -/
theorem prepare_spec (hC : ∀ i o e s, C i o e s → undisturbed o e s = true) (hs : Sound bare s)
    (bundle : Option Bytes) : Boots P bare C i (prepare P bundle)
      (fun r t => Published r.1.certPEM r.1.keyPEM r.2 t) s := by
  refine (disk_spec hs).seq hs fun _ s₁ hs₁ _ => ?_
  refine (load_spec hs₁).seq hs₁ fun m s₂ hs₂ hm => ?_
  -- what was read stays known through the local steps
  have carry : ∀ {α : Type} {x : Boot α} {Q : α → Server → Prop} {t : Server}, Known bare m t →
      Boots P bare C i x Q t →
      Boots P bare C i x (fun a u => Q a u ∧ Known bare m u) t :=
    fun hk h => Succeeds.frame (F := Known bare m) (fun _ _ => Known.evolves)
      (fun _ _ => Known.evolves) hk h
  refine (carry hm (materialise_spec hs₂ m _)).seq hs₂ fun f₀ s₃ hs₃ h₃ => ?_
  obtain ⟨rfl, hm₃⟩ := h₃
  refine (carry hm₃ (readTrustBundle_spec hs₃ bundle)).seq hs₃ fun base s₄ hs₄ h₄ => ?_
  refine (carry h₄.2 (loadOrCreate_spec hs₄ _ _)).seq hs₄ fun r₁ s₅ hs₅ h₅ => ?_
  obtain ⟨f₁, a⟩ := r₁
  obtain ⟨⟨hcert, hkey, hpep, hca⟩, hm₅⟩ := h₅
  refine (carry hm₅ (loadPepper_spec hs₅ f₁)).seq hs₅ fun r₂ s₆ hs₆ h₆ => ?_
  obtain ⟨f₂, p⟩ := r₂
  obtain ⟨⟨hcert₂, hkey₂, hpep₂, hpne, hpe⟩, hm₆⟩ := h₆
  have hhold : f₂.Hold a.certPEM a.keyPEM p := ⟨hcert₂.trans hcert, hkey₂.trans hkey, hpep₂⟩
  have hca' : overwrite none m.certPEM = none ∧ overwrite none m.keyPEM = none ∨
      overwrite none m.certPEM = some a.certPEM ∧ overwrite none m.keyPEM = some a.keyPEM := by
    rcases hca with ⟨h1, h2, _⟩ | h
    · exact .inl ⟨h1, h2⟩
    · rw [h] at hcert hkey
      exact .inr ⟨hcert, hkey⟩
  have hne : a.certPEM ≠ [] ∧ a.keyPEM ≠ [] := by
    rcases hca with ⟨_, _, h⟩ | h
    · exact h
    · rw [h] at hcert hkey
      exact ⟨adopted_ne hcert, adopted_ne hkey⟩
  have hag : Agrees m a.certPEM a.keyPEM p := by
    rw [hpep] at hpe
    exact agrees_of_adopted hca' hpe
  refine (persist_spec hC hs₆ hm₆ hhold hne.1 hne.2 hpne hag).seq hs₆ fun r₃ s₇ hs₇ h₇ => ?_
  obtain ⟨f₃, adopted⟩ := r₃
  obtain ⟨c, k, q, hhold₃, hpub, hsame⟩ := h₇
  have publish : ∀ {α : Type} {x : Boot α} {Q : α → Server → Prop} {t : Server},
      Published c k q t → Boots P bare C i x Q t →
      Boots P bare C i x (fun a u => Q a u ∧ Published c k q u) t :=
    fun hk h => Succeeds.frame (F := Published c k q) (fun _ _ => Published.evolves)
      (fun _ _ => Published.evolves) hk h
  cases adopted with
  | false =>
    obtain ⟨h1, h2, h3⟩ := hhold₃
    obtain rfl := hsame rfl
    obtain rfl := Option.some.inj (h1.symm.trans hhold.1)
    obtain rfl := Option.some.inj (h2.symm.trans hhold.2.1)
    obtain rfl := Option.some.inj (h3.symm.trans hhold.2.2)
    exact .pure fun t ht _ => hpub.evolves ht
  | true =>
    refine (publish hpub (readTrustBundle_spec hs₇ bundle)).seq hs₇ fun base' s₈ hs₈ h₈ => ?_
    refine (publish h₈.2 (loadCA_spec hs₈ base' f₃)).seq hs₈ fun a' s₉ hs₉ h₉ => ?_
    refine (publish h₉.2 (loadPepper_spec hs₉ f₃)).seq hs₉ fun r₄ s₁₀ _ h₁₀ => ?_
    obtain ⟨f₄, p'⟩ := r₄
    obtain ⟨⟨_, _, _, _, hp'⟩, hpub'⟩ := h₁₀
    obtain rfl := Option.some.inj (hhold₃.1.symm.trans h₉.1.1)
    obtain rfl := Option.some.inj (hhold₃.2.1.symm.trans h₉.1.2)
    have hq : q = p' := by
      rcases hp' with h | h
      · rw [hhold₃.2.2] at h
        cases h
      · exact Option.some.inj (hhold₃.2.2.symm.trans h)
    rw [hq] at hpub'
    exact .pure fun t ht _ => hpub'.evolves ht

end Specs

/-! ## The law -/

/-- The run starts without any field of the CA material. -/
def StartsBare (start : Option (Secret Bytes)) : Prop := ∀ sec, start = some sec → Bare sec

theorem sound_start {start : Option (Secret Bytes)}
    (hv : ∀ sec, start = some sec → 0 < sec.resourceVersion) :
    Sound (StartsBare start) (serverOf start) := by
  cases start with
  | none =>
    exact ⟨ordered_nil, fun _ sec h => (by cases h), fun sec ⟨v, hmem, _⟩ => (by cases hmem)⟩
  | some sec =>
    refine ⟨ordered_nil.push (hv sec rfl) fun cur h => (by cases h), fun h => (by cases h), ?_⟩
    rintro _ ⟨v, hmem, rfl⟩
    obtain rfl := mem_singleton.mp hmem
    by_cases hb : Bare sec
    · exact .inl ⟨fun sec' h => by cases h; exact hb, hb⟩
    · exact .inr (.inr ⟨fun h => hb (h sec rfl), hb⟩)

/-- In every run whose steps are undisturbed, whatever fields the Secret has at
first: each replica whose `prepare` succeeded has the CA certificate, the CA key
and the pepper that the Secret holds, so any two of them agree. -/
theorem replicas_agree_if_none_is_overtaken {ι : Type} [DecidableEq ι] (P : Packages)
    (start : Option (Secret Bytes)) (hv : ∀ sec, start = some sec → 0 < sec.resourceVersion)
    (bundle : ι → Option Bytes) (ls : List (ι × BootEnv))
    (c : Conf BootAns ι Server (Except PrepareErr (Authority × Bytes)))
    (hm : Meets (bootMachine P) (fun _ o e s => undisturbed o e s = true)
      (bootSystem P start bundle) ls)
    (hr : run (bootMachine P) (bootSystem P start bundle) ls = some c) :
    (∀ i a p, c.thread i = .done (.ok (a, p)) →
      ∃ sec, current c.shared = some sec ∧ Has sec a.certPEM a.keyPEM p) ∧
    ∀ i j a b p q, c.thread i = .done (.ok (a, p)) → c.thread j = .done (.ok (b, q)) →
      a.certPEM = b.certPEM ∧ a.keyPEM = b.keyPEM ∧ p = q := by
  have hinv : Sound (StartsBare start) (bootSystem P start bundle).shared := sound_start hv
  have hpub : ∀ i a p, c.thread i = .done (.ok (a, p)) →
      ∃ sec, current c.shared = some sec ∧ Has sec a.certPEM a.keyPEM p := by
    intro i a p hd
    have hdone := done_of_run (i := i)
      (P := bootPact (StartsBare start) fun (_ : ι) o e s => undisturbed o e s = true) hinv
      (fun j => prepare_spec (fun _ _ _ _ h => h) hinv (bundle j)) hm hr hd (a, p) rfl
    exact hdone.2.2.2
  refine ⟨hpub, fun i j a b p q hi hj => ?_⟩
  obtain ⟨sec, hcur, h1, h2, h3⟩ := hpub i a p hi
  obtain ⟨sec', hcur', h1', h2', h3'⟩ := hpub j b q hj
  rw [hcur] at hcur'
  cases hcur'
  exact ⟨h1.symm.trans h1', h2.symm.trans h2', h3.symm.trans h3'⟩

/-- Packages for the examples: a seed is the last byte of what it generates. -/
def plainPackages : Packages :=
  { rotationRoots := fun _ => [], joinRootsPEM := fun a b => a ++ b
    parseTrustBundle := fun _ => true, additionalRoots := fun _ => true
    parseMaterial := fun _ _ _ => true
    mintRoot := fun seed => ([1, UInt8.ofNat seed], [2, UInt8.ofNat seed])
    generatePepper := fun seed => List.replicate 32 (UInt8.ofNat seed)
    mintRoot_ne := fun _ => ⟨by simp, by simp⟩
    generatePepper_length := fun _ => length_replicate }

/-- `n` steps without faults of one replica, which generates from its own seed. -/
def bootSteps (i : Bool) (n : Nat) : List (Bool × BootEnv) :=
  List.replicate n (i, { disk := true, fault := .delivered, gap := 0,
                         seed := some (if i then 2 else 1) })

def withoutPepper : Secret Bytes :=
  { resourceVersion := 1
    data := (Finmap.insert secretKeyCACert [1] ∅ : StrMap Bytes).insert secretKeyCAKey [2]
    labels := ∅, annotations := ∅ }

/-- The second replica reads the Secret when the first one has completed it. -/
def completedFirst : List (Bool × BootEnv) := bootSteps false 9 ++ bootSteps true 5

theorem replicas_agree_after_one_completes_the_secret :
    ∃ c, run (bootMachine plainPackages)
        (bootSystem plainPackages (some withoutPepper) fun _ : Bool => none) completedFirst =
          some c ∧
      ∃ a b p q, c.thread false = .done (.ok (a, p)) ∧ c.thread true = .done (.ok (b, q)) ∧
        a.certPEM = b.certPEM ∧ a.keyPEM = b.keyPEM ∧ p = q := by
  refine ⟨_, rfl, _, _, _, _, rfl, rfl, ?_⟩
  exact (replicas_agree_if_none_is_overtaken plainPackages (some withoutPepper)
    (by rintro _ ⟨⟩; decide) (fun _ : Bool => none) completedFirst _ (by decide) rfl).2
    false true _ _ _ _ rfl rfl

/-- The first replica completes the Secret after the second one read it. The
second one then finds it complete. -/
def overtakenBeforeRead : List (Bool × BootEnv) :=
  bootSteps true 7 ++ bootSteps false 9 ++ bootSteps true 1

/-- Here the second one also read it for its update, which is a conflict. -/
def overtakenBeforeUpdate : List (Bool × BootEnv) :=
  bootSteps true 8 ++ bootSteps false 9 ++ bootSteps true 3

/-- In the run the two replicas come up without an error and with different
peppers, and the one of the second replica is not the one in the Secret. -/
def SplitsPepper (ls : List (Bool × BootEnv)) : Prop :=
  ∃ c, run (bootMachine plainPackages)
      (bootSystem plainPackages (some withoutPepper) fun _ : Bool => none) ls = some c ∧
    ∃ a b p q sec, c.thread false = .done (.ok (a, p)) ∧ c.thread true = .done (.ok (b, q)) ∧
      current c.shared = some sec ∧ p ≠ q ∧ field secretKeyPepper sec ≠ q

theorem an_overtaken_replica_keeps_its_own_pepper :
    SplitsPepper overtakenBeforeRead ∧ SplitsPepper overtakenBeforeUpdate := by
  constructor
  · exact ⟨_, rfl, _, _, _, _, _, rfl, rfl, rfl, by decide, by decide⟩
  · exact ⟨_, rfl, _, _, _, _, _, rfl, rfl, rfl, by decide, by decide⟩

end prom_fleet.hub
