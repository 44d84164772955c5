-- What a scope and a selector ask of the labels of a cluster. A label is read with Go's
-- map index, which gives the empty text for a key that is not there, so a key listed with
-- the empty text asks for nothing.
import PromFleet.ToolQueries

namespace prom_fleet.fleet

open mcptools Finmap

variable {labels want : StrMap String} {k v : String}

/-! ## Reading labels -/

/-- `(*Scope).AllowsCluster`: the receiver may be nil. -/
def allowsCluster (s : Option Scope) (id : String) (labels : StrMap String) : Bool :=
  match s with
  | none => false
  | some s => s.allowsCluster id labels

/-- Every label that is wanted is there, with exactly its value. -/
def Carries (labels want : StrMap String) : Prop :=
  ∀ k v, want.lookup k = some v → labels.lookup k = some v

/-- A label that is wanted with the empty text is there, with some value. -/
def EmptyPresent (labels want : StrMap String) : Prop :=
  ∀ k, want.lookup k = some "" → k ∈ labels

/-- Every label that is wanted reads as wanted, where a missing one reads as empty. -/
def Reads (labels want : StrMap String) : Prop :=
  ∀ k ∈ want.keys, labelOf labels k = labelOf want k

theorem labelOf_of_lookup (h : labels.lookup k = some v) : labelOf labels k = v := by
  simp [labelOf, h]

theorem Carries.reads (h : Carries labels want) : Reads labels want := by
  intro k hk
  obtain ⟨v, hv⟩ := mem_iff.mp (mem_keys.mp hk)
  rw [labelOf_of_lookup hv, labelOf_of_lookup (h k v hv)]

/-- Labels that read as wanted are there, unless one is wanted with the empty text. -/
theorem Reads.carries_iff (h : Reads labels want) :
    Carries labels want ↔ EmptyPresent labels want := by
  constructor
  · intro hcarries k hk
    exact mem_of_lookup_eq_some (hcarries k "" hk)
  · intro hempty k v hv
    have hread := h k (mem_keys.mpr (mem_of_lookup_eq_some hv))
    rw [labelOf_of_lookup hv] at hread
    cases hlookup : labels.lookup k with
    | some x => rw [← hread, labelOf_of_lookup hlookup]
    | none =>
      have hv' : v = "" := by simpa [labelOf, hlookup] using hread.symm
      subst hv'
      have hmem := hempty k hv
      rw [← lookup_isSome, hlookup] at hmem
      cases hmem

/-! ## The decision of a scope -/

variable (s : Scope)

/-- The clusters that the explicit list of a scope leaves open, apart from the labels. -/
def Scope.lists (id : String) : Prop :=
  (id ∈ s.clusters.allow ∨ "*" ∈ s.clusters.allow) ∨
    (s.clusters.allow = [] ∧ s.clusters.matchLabels ≠ ∅)

theorem Scope.allowsCluster_iff (id : String) (labels : StrMap String) :
    s.allowsCluster id labels = true ↔ id ∉ s.clusters.deny ∧
      Reads labels s.clusters.matchLabels ∧ s.lists id := by
  unfold Scope.allowsCluster Scope.lists Reads
  split
  · simp [*]
  split
  · rename_i _ h
    simp only [Bool.false_eq_true, false_iff]
    exact fun hall => h hall.2.1
  · rename_i hdeny h
    have hopen : ∀ lists : Prop, (id ∉ s.clusters.deny ∧ (∀ k ∈ s.clusters.matchLabels.keys,
        labelOf labels k = labelOf s.clusters.matchLabels k) ∧ lists) ↔ lists :=
      fun lists => ⟨fun hall => hall.2.2, fun hl => ⟨hdeny, not_not.mp h, hl⟩⟩
    rw [hopen]
    split
    · rename_i hallow
      simp [hallow]
    · rename_i hallow
      simp only [decide_eq_true_eq, hallow, false_and, or_false]
      exact Or.comm

/-- A scope that lists another label. -/
def Scope.withLabel (k v : String) : Scope :=
  { s with clusters := { s.clusters with matchLabels := s.clusters.matchLabels.insert k v } }

/-- What the scope is documented to grant: no rule denies the cluster, every label of the scope is
there with its value, and the lists leave the cluster open. -/
def Granted (scope : Option Scope) (id : String) (labels : StrMap String) : Prop :=
  ∃ s, scope = some s ∧ id ∉ s.clusters.deny ∧ Carries labels s.clusters.matchLabels ∧ s.lists id

/-- A label that is wanted with the empty text is missing only where the scope refuses the cluster
for another reason. -/
def Scope.Decided (id : String) (labels : StrMap String) : Prop :=
  id ∉ s.clusters.deny → s.lists id → Reads labels s.clusters.matchLabels →
    EmptyPresent labels s.clusters.matchLabels

theorem granted_some {s : Scope} {id : String} : Granted (some s) id labels ↔
    id ∉ s.clusters.deny ∧ Carries labels s.clusters.matchLabels ∧ s.lists id := by
  constructor
  · rintro ⟨s', hs', h⟩
    cases hs'
    exact h
  · exact fun h => ⟨s, rfl, h⟩

theorem allows_iff_granted_iff (id : String) (labels : StrMap String) :
    (allowsCluster (some s) id labels = true ↔ Granted (some s) id labels) ↔
      s.Decided id labels := by
  rw [granted_some, allowsCluster, Scope.allowsCluster_iff]
  constructor
  · intro h hdeny hlists hreads
    exact hreads.carries_iff.mp (h.mp ⟨hdeny, hreads, hlists⟩).2.1
  · intro h
    constructor
    · rintro ⟨hdeny, hreads, hlists⟩
      exact ⟨hdeny, hreads.carries_iff.mpr (h hdeny hlists hreads), hlists⟩
    · exact fun ⟨hdeny, hcarries, hlists⟩ => ⟨hdeny, hcarries.reads, hlists⟩

/-- The decisions of scopes and of selectors are the documented ones exactly if no label that is
wanted with the empty text is missing where it would decide. The same holds for a scope that has
been given a label which the cluster does not carry: it shuts the cluster out. -/
theorem label_scoping_needs_the_label_iff_no_empty_one_decides (labels : StrMap String) :
    (∀ (scope : Option Scope) (id : String),
      (allowsCluster scope id labels = true ↔ Granted scope id labels) ↔
        ∀ s, scope = some s → s.Decided id labels) ∧
    (∀ sel : StrMap String, (matchesSelector labels sel = true ↔ Carries labels sel) ↔
      (Reads labels sel → EmptyPresent labels sel)) ∧
    ∀ (s : Scope) (id k v : String), k ∉ labels →
      (allowsCluster (some (s.withLabel k v)) id labels = false ↔
        (s.withLabel k v).Decided id labels) := by
  refine ⟨fun scope id => ?_, fun sel => ?_, fun s id k v hk => ?_⟩
  · cases scope with
    | none => simp [allowsCluster, Granted]
    | some s =>
      rw [allows_iff_granted_iff]
      exact ⟨fun h s' hs' => Option.some.inj hs' ▸ h, fun h => h s rfl⟩
  · unfold matchesSelector
    rw [decide_eq_true_eq]
    change (Reads labels sel ↔ _) ↔ _
    constructor
    · exact fun h hreads => hreads.carries_iff.mp (h.mp hreads)
    · exact fun h => ⟨fun hreads => hreads.carries_iff.mpr (h hreads), Carries.reads⟩
  · rw [← allows_iff_granted_iff, granted_some, ← Bool.not_eq_true]
    have hnot : ¬Carries labels (s.withLabel k v).clusters.matchLabels :=
      fun h => hk (mem_of_lookup_eq_some (h k v (lookup_insert _)))
    simp [hnot]

/-! ## An empty value -/

/-- A scope of an agent key with these labels and no list. -/
def labelScope (want : StrMap String) : Scope :=
  { role := .viewer
    clusters := ⟨[], want, []⟩
    tools := ⟨["*"], []⟩
    limits := ⟨0, 0, 0, 0, 0, 0, 0, 0⟩ }

def prodLabels : StrMap String := Finmap.singleton "env" "prod"

theorem label_scoping_of_the_prod_clusters :
    Carries prodLabels prodLabels ∧
      allowsCluster (some (labelScope prodLabels)) "east" prodLabels = true ∧
      matchesSelector prodLabels prodLabels = true ∧
      allowsCluster (some ((labelScope prodLabels).withLabel "tier" "one")) "east" prodLabels =
        false := by
  obtain ⟨hscope, hselector, hadd⟩ :=
    label_scoping_needs_the_label_iff_no_empty_one_decides prodLabels
  have hempty : EmptyPresent prodLabels prodLabels := fun k hk => mem_of_lookup_eq_some hk
  have hcarries : Carries prodLabels prodLabels := fun _ _ h => h
  refine ⟨hcarries, ((hscope (some (labelScope prodLabels)) "east").mpr ?_).mpr ?_,
    ((hselector prodLabels).mpr fun _ => hempty).mpr hcarries,
    (hadd (labelScope prodLabels) "east" "tier" "one" (by decide)).mpr ?_⟩
  · intro s hs
    cases hs
    exact fun _ _ _ => hempty
  · exact ⟨labelScope prodLabels, rfl, by decide, hcarries, .inr ⟨rfl, by decide⟩⟩
  · -- The label reads as empty, so nothing is asked.
    intro _ _ hreads
    exact absurd (hreads "tier" (by decide)) (by decide)

/-- A key that is listed with the empty text asks for nothing: a cluster without labels is
in the scope, and adding the key to a scope for every cluster removes none. -/
theorem an_empty_value_matches_an_absent_label : ∃ (s wide : Scope) (labels : StrMap String),
      s.clusters.matchLabels.lookup "env" = some "" ∧ "env" ∉ labels ∧
      allowsCluster (some s) "east" labels = true ∧
      ¬Carries labels s.clusters.matchLabels ∧
      matchesSelector labels s.clusters.matchLabels = true ∧
      allowsCluster (some (wide.withLabel "env" "")) "east" labels = true := by
  refine ⟨labelScope (Finmap.singleton "env" ""),
    { labelScope ∅ with clusters := ⟨["*"], ∅, []⟩ }, ∅, by decide, by decide, by decide, ?_,
    by decide, by decide⟩
  intro h
  have habsent := h "env" "" (by decide)
  cases habsent

end prom_fleet.fleet
