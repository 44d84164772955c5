-- The guard of the tools: how a cluster name of a caller becomes a cluster of the fleet,
-- and what the error says if it does not. The suggestions rank the whole fleet, cut the
-- ranking, and only then drop what the caller may not see.
import PromFleet.RegistryViews

namespace prom_fleet.mcptools

open fleet registry map_range List

/-! ## Errors -/

/-- The codes of the errors: a closed set. -/
inductive Code where
  | unknownCluster
  | spokeUnreachable
  | promQLParse
  | promQLExec
  | queryTimeout
  | canceled
  | rangeTooLarge
  | badMatcher
  | badRegex
  | invalidArgument
  | invalidTime
  | tsdbStatsUnavailable
  | responseTooLarge
  | rateLimited
  | hubBusy
  | upstreamError
  | malformedUpstream
  | noClustersMatched
  | allClustersFailed
  | noSelectorTooBroad
  deriving DecidableEq, Repr

/-- An argument of a caller, as an error echoes it. -/
inductive Arg where
  | text (s : String)
  | number (n : Int)
  | texts (l : List String)
  | labels (m : StrMap String)
  | fields (l : List (String × String))
  deriving DecidableEq

/-- `ToolError`. An absent field is the empty one. -/
structure ToolError where
  code : Code
  message : String
  input : List (String × Arg)
  hint : String
  retryable : Bool
  didYouMean : List String
  caret : String
  corrected : List (String × Arg)
  deriving DecidableEq

/-- The functions on texts that the errors and the ranking use: `render.ClipRunes`, the
verb `%q` and `strings.ToLower`. -/
structure Texts where
  clipRunes : String → Nat → String
  quote : String → String
  toLower : String → String

variable (T : Texts)

def newError (code : Code) (message : String) (retryable : Bool) : ToolError :=
  { code := code, message := T.clipRunes message 600, input := [], hint := "",
    retryable := retryable, didYouMean := [], caret := "", corrected := [] }

/-! ## The ranking -/

def maxNearestInputRunes : Nat := 64

/-- `truncateRunes` of the text in lower case. -/
def runes (s : String) : List Char := (T.toLower s).toList.take maxNearestInputRunes

variable {α : Type} [DecidableEq α]

/-- The inner loop of `levenshtein`: the rest of the new row, from the rest of the old one.
`prev` is the old value on the left, `left` the new one. -/
def levenshteinRow (x : α) : List α → List Nat → Nat → Nat → List Nat
  | y :: b, cur :: row, prev, left =>
    let cost := if x = y then 0 else 1
    let new := min (min (cur + 1) (left + 1)) (prev + cost)
    new :: levenshteinRow x b row cur new
  | _, _, _, _ => []

/-- The outer loop of `levenshtein`, from the round `i`. -/
def levenshteinRows (b : List α) : List α → Nat → List Nat → List Nat
  | [], _, row => row
  | x :: a, i, row => levenshteinRows b a (i + 1) (i :: levenshteinRow x b row.tail row.headI i)

def levenshtein (a b : List α) : Nat :=
  let (a, b) := if a.length < b.length then (b, a) else (a, b)
  if b = [] then a.length
  else (levenshteinRows b a 1 (List.range (b.length + 1))).getLastD 0

structure Scored where
  id : String
  dist : Nat
  deriving DecidableEq

/-- The order of the ranking: by distance, then by name. -/
def Scored.before (a b : Scored) : Prop := a.dist < b.dist ∨ a.dist = b.dist ∧ a.id ≤ b.id

instance : DecidableRel Scored.before := fun a b =>
  inferInstanceAs (Decidable (a.dist < b.dist ∨ a.dist = b.dist ∧ a.id ≤ b.id))

def score (target cid : String) : Scored :=
  ⟨cid, levenshtein (runes T target) (runes T cid)⟩

/-! ## The fleet -/

/-- The registry at one time. Each view carries the name under which it is filed, as in
every state that the registry reaches. -/
structure Fleet where
  reg : Reg
  grace : Int
  orders : Orders
  now : Int
  named : ∀ id e, reg.entries.lookup id = some e → (reg.mergedLocked orders id e).id = id

/-- Every state of a run of the registry is such a fleet. -/
def Fleet.ofSound {ι : Type} {cfg : Config} {w : World ι}
    (h : Sound cfg w) (orders : Orders) (now : Int) : Fleet :=
  ⟨w.reg, cfg.grace, orders, now, fun _ _ he => (h.merged_branded he orders).1⟩

namespace Fleet

def cluster (F : Fleet) (id : String) : Option Cluster := F.reg.cluster F.grace F.orders F.now id

def visible (F : Fleet) (p : Principal) : List Cluster :=
  F.reg.visible F.grace F.orders F.now (some p)

/-- The names of the present clusters, in the order of the loop. -/
def names (F : Fleet) : List String :=
  ((F.orders.entries.list F.reg.entries).filter fun x =>
    presentLocked F.grace x.2 F.now).map Sigma.fst

def nearest (F : Fleet) (T : Texts) (id : String) (n : Int) : List String :=
  if n ≤ 0 then []
  else
    (((F.names.map (score T id)).insertionSort Scored.before).take n.toNat).map Scored.id

end Fleet

/-! ## The guard -/

def didYouMeanCount : Nat := 5

def isAlnum (c : Char) : Bool := (decide ('a' ≤ c) && decide (c ≤ 'z')) || c.isDigit

/-- `clusterIDRE.MatchString`. -/
def clusterIDMatches (s : String) : Bool :=
  match s.toList with
  | [] => false
  | [c] => isAlnum c
  | c :: rest =>
    isAlnum c && decide (rest.length ≤ 62) && rest.dropLast.all (fun c => isAlnum c || c = '-') &&
      isAlnum (rest.getLastD ' ')

def didYouMean (F : Fleet) (p : Principal) (id : String) : List String :=
  let visible := F.visible p
  if visible = [] then []
  else
    ((F.nearest T id (didYouMeanCount * 4)).filter fun cand =>
      decide (cand ∈ visible.map Cluster.id)).take didYouMeanCount

def unknownCluster (F : Fleet) (p : Principal) (id : String) : ToolError :=
  let clipped := T.clipRunes id 128
  let e := newError T .unknownCluster
    ("no cluster named " ++ T.quote clipped ++ " is reachable by this credential") false
  let suggestions := didYouMean T F p id
  { e with
    input := [("cluster", .text clipped)]
    didYouMean := suggestions
    hint :=
      if suggestions ≠ [] then
        "Retry with one of didYouMean, or call list_clusters to see every cluster " ++
          "this credential can reach."
      else "Call list_clusters to see every cluster this credential can reach." }

def resolveCluster (F : Fleet) (p : Principal) (id : String) :
    Except ToolError Cluster :=
  if id = "" then
    .error { newError T .invalidArgument "cluster is required" false with
      hint := "Call list_clusters to see the clusters this credential can reach." }
  else if !clusterIDMatches id then
    .error { unknownCluster T F p id with
      hint := "A cluster name is lower-case letters, digits and hyphens, " ++
        "at most 63 characters. Call list_clusters for the exact names." }
  else
    match F.cluster id with
    | none => .error (unknownCluster T F p id)
    | some c =>
      if (p.scope.map fun s => s.allowsCluster c.id c.labels).getD false then .ok c
      else .error (unknownCluster T F p id)

/-! ## What the suggestions depend on -/

variable {a b : Scored}

theorem before_trans {c : Scored} (hab : a.before b) (hbc : b.before c) : a.before c := by
  rcases hab with h | ⟨h, h'⟩ <;> rcases hbc with k | ⟨k, k'⟩
  · exact .inl (h.trans k)
  · exact .inl (k ▸ h)
  · exact .inl (h ▸ k)
  · exact .inr ⟨h.trans k, h'.trans k'⟩

theorem before_total (a b : Scored) : a.before b ∨ b.before a := by
  rcases lt_trichotomy a.dist b.dist with h | h | h
  · exact .inl (.inl h)
  · rcases le_total a.id b.id with h' | h'
    · exact .inl (.inr ⟨h, h'⟩)
    · exact .inr (.inr ⟨h.symm, h'⟩)
  · exact .inr (.inl h)

theorem before_antisymm (hab : a.before b) (hba : b.before a) : a = b := by
  obtain ⟨ida, da⟩ := a
  obtain ⟨idb, db⟩ := b
  unfold Scored.before at *
  dsimp only at hab hba
  have hd : da = db := by omega
  subst hd
  have hid : ida = idb := by
    rcases hab with h | h
    · omega
    rcases hba with k | k
    · omega
    · exact le_antisymm h.2 k.2
  rw [hid]

instance : IsTrans Scored Scored.before := ⟨fun _ _ _ => before_trans⟩

instance : Std.Total Scored.before := ⟨before_total⟩

/-- The ranking is known from what is ranked, in whatever order it comes. -/
theorem rank_perm {l l' : List Scored} (h : l.Perm l') :
    l.insertionSort Scored.before = l'.insertionSort Scored.before :=
  (((perm_insertionSort _ l).trans h).trans (perm_insertionSort _ l').symm).eq_of_pairwise
    (fun _ _ _ _ => before_antisymm) (pairwise_insertionSort _ l)
    (pairwise_insertionSort _ l')

theorem rank_filter (P : Scored → Bool) (l : List Scored) :
    (l.insertionSort Scored.before).filter P = (l.filter P).insertionSort Scored.before :=
  (((perm_insertionSort _ l).filter P).trans
    (perm_insertionSort _ (l.filter P)).symm).eq_of_pairwise
    (fun _ _ _ _ => before_antisymm) ((pairwise_insertionSort _ l).filter P)
    (pairwise_insertionSort _ _)

namespace Fleet

variable {F F₁ F₂ : Fleet} {p : Principal} {id : String}

theorem mem_names : id ∈ F.names ↔ ∃ e, F.reg.entries.lookup id = some e ∧
    presentLocked F.grace e F.now = true := by
  unfold names
  rw [mem_map]
  constructor
  · rintro ⟨⟨id, e⟩, hmem, rfl⟩
    obtain ⟨hlist, hp⟩ := mem_filter.mp hmem
    exact ⟨e, (Range.mem_list _ _).mp hlist, hp⟩
  · rintro ⟨e, he, hp⟩
    exact ⟨⟨id, e⟩, mem_filter.mpr ⟨(Range.mem_list _ _).mpr he, hp⟩, rfl⟩

theorem nodup_names (F : Fleet) : F.names.Nodup := by
  exact (F.orders.entries.nodup_keys F.reg.entries).sublist (filter_sublist.map Sigma.fst)

/-- The names of the clusters that the caller may see. -/
def seen (F : Fleet) (p : Principal) : List String := (F.visible p).map Cluster.id

theorem mem_seen : id ∈ F.seen p ↔ ∃ c, F.cluster id = some c ∧
    (p.scope.map fun s => s.allowsCluster c.id c.labels).getD false = true := by
  unfold seen visible Reg.visible cluster
  cases hscope : p.scope with
  | none => simp [hscope]
  | some scope =>
    simp only [Option.bind_some, hscope, Option.map_some, Option.getD_some, mem_map]
    constructor
    · rintro ⟨c, hc, rfl⟩
      obtain ⟨hkeep, name, e, he, hp, rfl⟩ := mem_filter.mp hc
      refine ⟨_, cluster_eq_some.mpr ⟨e, ?_, hp, ?_⟩, hkeep⟩
      · rw [F.named name e he]
        exact he
      · rw [F.named name e he]
    · rintro ⟨c, hc, hkeep⟩
      obtain ⟨e, he, hp, rfl⟩ := cluster_eq_some.mp hc
      exact ⟨_, mem_filter.mpr ⟨hkeep, id, e, he, hp, rfl⟩, F.named id e he⟩

theorem seen_subset : F.seen p ⊆ F.names := by
  intro id hid
  obtain ⟨c, hc, _⟩ := mem_seen.mp hid
  obtain ⟨e, he, hp, _⟩ := cluster_eq_some.mp hc
  exact mem_names.mpr ⟨e, he, hp⟩

/-- What a caller may see of the present clusters is what the caller sees. -/
theorem names_filter_perm (h : ∀ name, name ∈ F₁.seen p ↔ name ∈ F₂.seen p) :
    (F₁.names.filter fun name => decide (name ∈ F₁.seen p)).Perm
      (F₂.names.filter fun name => decide (name ∈ F₂.seen p)) := by
  apply (perm_ext_iff_of_nodup (F₁.nodup_names.filter _) (F₂.nodup_names.filter _)).mpr
  intro name
  simp only [List.mem_filter, decide_eq_true_eq]
  constructor
  · rintro ⟨_, hseen⟩
    exact ⟨seen_subset ((h name).mp hseen), (h name).mp hseen⟩
  · rintro ⟨_, hseen⟩
    exact ⟨seen_subset ((h name).mpr hseen), (h name).mpr hseen⟩

end Fleet

section Cut

variable {α : Type} {r : α → α → Prop} {P : α → Bool}

/-- The beginning of a sorted list has what few elements come before. -/
theorem take_eq_filter [DecidableEq α] [DecidableRel r] {l : List α} (hsorted : l.Pairwise r)
    (hanti : ∀ a b, r a b → r b a → a = b) (hnodup : l.Nodup) (n : Nat) : l.take n =
      l.filter fun x => decide ((l.filter fun y => decide (y ≠ x ∧ r y x)).length < n) := by
  induction l generalizing n with
  | nil => simp
  | cons x l ih =>
    obtain ⟨hfirst, hsorted⟩ := pairwise_cons.mp hsorted
    obtain ⟨hx, hnodup⟩ := nodup_cons.mp hnodup
    have hnone : ((x :: l).filter fun y => decide (y ≠ x ∧ r y x)) = [] := by
      simp only [filter_eq_nil_iff, decide_eq_true_eq]
      rintro y hy ⟨hne, hyx⟩
      exact hne (hanti y x hyx (hfirst y ((mem_cons.mp hy).resolve_left hne)))
    have hrest : ∀ z ∈ l, ((x :: l).filter fun y => decide (y ≠ z ∧ r y z)).length =
        (l.filter fun y => decide (y ≠ z ∧ r y z)).length + 1 := by
      intro z hz
      have hne : x ≠ z := fun h => hx (h ▸ hz)
      rw [filter_cons_of_pos (by simp [hne, hfirst z hz]), length_cons]
    cases n with
    | zero => simp
    | succ n =>
      rw [take_succ_cons, filter_cons_of_pos (by rw [hnone]; simp), ih hsorted hnodup n]
      congr 1
      refine filter_congr fun z hz => ?_
      rw [hrest z hz]
      simp

/-- What satisfies `P` stands at the beginning, so a cut before or after does the same. -/
theorem take_filter_of_begins {l : List α} (h : l.filter P <+: l) (k : Nat) :
    (l.filter P).take k = (l.take k).filter P := by
  have hfew : (l.take k).filter P <+: (l.filter P).take k :=
    prefix_take_iff.mpr
      ⟨( take_prefix k l).filter P, (length_filter_le ..).trans (length_take_le ..)⟩
  have hmany : (l.filter P).take k <+: l.take k :=
    prefix_take_iff.mpr ⟨( take_prefix ..).trans h, length_take_le ..⟩
  have hself : ((l.filter P).take k).filter P = (l.filter P).take k :=
    filter_eq_self.mpr fun x hx => of_mem_filter (mem_of_mem_take hx)
  exact (hself ▸ hmany.filter P).eq_of_length_le hfew.length_le

end Cut

namespace Fleet

/-- How many present names are nearer to the wanted one than this name is. -/
def place (F : Fleet) (T : Texts) (id name : String) : Nat :=
  (F.names.filter fun other =>
    decide (other ≠ name ∧ (score T id other).before (score T id name))).length

/-- The five nearest of the names that the caller sees. -/
def closest (F : Fleet) (T : Texts) (p : Principal) (id : String) : List String :=
  ((((F.names.filter fun name => decide (name ∈ F.seen p)).map (score T id)).insertionSort
    Scored.before).take didYouMeanCount).map Scored.id

end Fleet

/-- The suggestions are those of the nearest names that the ranking has not cut off. -/
theorem didYouMean_eq (F : Fleet) (p : Principal) (id : String) :
    didYouMean T F p id = (F.closest T p id).filter fun name =>
      decide (F.place T id name < 4 * didYouMeanCount) := by
  let ranked := (F.names.map (score T id)).insertionSort Scored.before
  let near (x : Scored) : Bool := decide (F.place T id x.id < 20)
  let sees (x : Scored) : Bool := decide (x.id ∈ F.seen p)
  have hinj : Function.Injective (score T id) := fun a b h => (Scored.mk.inj h).1
  have hnodup : ranked.Nodup := ((perm_insertionSort _ _).nodup_iff).mpr (F.nodup_names.map hinj)
  have hplace : ∀ x ∈ ranked, (ranked.filter fun y => decide (y ≠ x ∧ y.before x)).length =
      F.place T id x.id := by
    intro x hx
    obtain ⟨name, -, rfl⟩ := mem_map.mp ((mem_insertionSort _).mp hx)
    rw [((perm_insertionSort _ _).filter _).length_eq, filter_map, length_map]
    simp only [Function.comp_def, ne_eq, hinj.eq_iff]
    rfl
  have hcut : ranked.take 20 = ranked.filter near := by
    rw [take_eq_filter (pairwise_insertionSort _ _) (fun _ _ => before_antisymm) hnodup]
    exact filter_congr fun x hx => by rw [hplace x hx]
  have hbegins : (ranked.filter sees).filter near <+: ranked.filter sees := by
    rw [filter_comm, ← hcut]
    exact ( take_prefix 20 ranked).filter _
  have hseen : ranked.filter sees = ((F.names.filter fun name => decide (name ∈ F.seen p)).map
      (score T id)).insertionSort Scored.before := by
    rw [rank_filter, filter_map]
    rfl
  unfold didYouMean
  dsimp only
  split
  · rename_i hempty
    simp [Fleet.closest, Fleet.seen, hempty]
  · have hnearest : F.nearest T id (didYouMeanCount * 4) = (ranked.take 20).map Scored.id := rfl
    rw [hnearest, filter_map, ← map_take, Fleet.closest, filter_map, ← hseen]
    congr 1
    show ((ranked.take 20).filter sees).take 5 = ((ranked.filter sees).take 5).filter near
    rw [hcut, filter_comm, take_filter_of_begins hbegins]

variable {T : Texts} {id : String} {p : Principal}

theorem unknownCluster_congr {F₁ F₂ : Fleet} (h : didYouMean T F₁ p id = didYouMean T F₂ p id) :
    unknownCluster T F₁ p id = unknownCluster T F₂ p id := by
  unfold unknownCluster
  rw [h]

/-- The answer for a name that the caller may not see depends on the suggestions alone. -/
theorem resolveCluster_hidden {F : Fleet} (h : id ∉ F.seen p) : resolveCluster T F p id = .error
      (if id = "" then { newError T .invalidArgument "cluster is required" false with
          hint := "Call list_clusters to see the clusters this credential can reach." }
      else if !clusterIDMatches id then { unknownCluster T F p id with
          hint := "A cluster name is lower-case letters, digits and hyphens, " ++
            "at most 63 characters. Call list_clusters for the exact names." }
      else unknownCluster T F p id) := by
  unfold resolveCluster
  split
  · rfl
  split
  · rfl
  cases hc : F.cluster id with
  | none => rfl
  | some c =>
    have hnot : (p.scope.map fun s => s.allowsCluster c.id c.labels).getD false ≠ true :=
      fun hallows => h (Fleet.mem_seen.mpr ⟨c, hc, hallows⟩)
    simp only [if_neg hnot]

/-! ## The error tells nothing of what is hidden -/

/-- For a name that the caller may not see, two fleets that look the same to the caller give the
same error exactly if each of the five nearest names that the caller sees is within the first
twenty of the one fleet when it is in the other. -/
theorem unknown_cluster_errors_agree_iff_the_cuts_do (T : Texts) (p : Principal) (id : String)
    (F₁ F₂ : Fleet) (hsame : ∀ name, name ∈ F₁.seen p ↔ name ∈ F₂.seen p) (hid : id ∉ F₁.seen p) :
    (∃ e, resolveCluster T F₁ p id = .error e ∧ resolveCluster T F₂ p id = .error e) ↔
      id = "" ∨ ∀ name ∈ F₁.closest T p id, (F₁.place T id name < 4 * didYouMeanCount ↔
        F₂.place T id name < 4 * didYouMeanCount) := by
  have hid₂ : id ∉ F₂.seen p := fun h => hid ((hsame id).mpr h)
  have hclosest : F₂.closest T p id = F₁.closest T p id := by
    unfold Fleet.closest
    rw [rank_perm ((Fleet.names_filter_perm hsame).map (score T id))]
  have hsuggest : didYouMean T F₁ p id = didYouMean T F₂ p id ↔
      ∀ name ∈ F₁.closest T p id, (F₁.place T id name < 4 * didYouMeanCount ↔
        F₂.place T id name < 4 * didYouMeanCount) := by
    rw [didYouMean_eq, didYouMean_eq, hclosest]
    constructor
    · intro h name hname
      have := congrArg (name ∈ ·) h
      simpa [hname] using this
    · exact fun h => filter_congr fun name hname => by simp [h name hname]
  rw [resolveCluster_hidden hid, resolveCluster_hidden hid₂, ← hsuggest]
  constructor
  · rintro ⟨e, h₁, h₂⟩
    by_cases hempty : id = ""
    · exact .inl hempty
    have h := congrArg ToolError.didYouMean (Except.error.inj (h₁.trans h₂.symm))
    rw [if_neg hempty, if_neg hempty] at h
    split at h <;> exact .inr h
  · rintro (hempty | h)
    · simp [hempty]
    · exact ⟨_, rfl, by rw [unknownCluster_congr h]⟩

/-! ## A crowd of hidden neighbours -/

variable (names : List String)

/-- Clusters that have just left, under these names. -/
def departed : StrMap Entry :=
  names.foldr (fun name m => m.insert name ⟨∅, 0, { Cluster.zero with id := name }⟩) ∅

theorem departed_named (id : String) (e : Entry)
    (h : (departed names).lookup id = some e) : e.slots = ∅ ∧ e.lastCluster.id = id := by
  induction names with
  | nil => simp [departed] at h
  | cons name names ih =>
    by_cases hid : id = name
    · subst hid
      obtain rfl := Option.some.inj ((Finmap.lookup_insert _).symm.trans h)
      exact ⟨rfl, rfl⟩
    · exact ih ((Finmap.lookup_insert_of_ne _ hid).symm.trans h)

def fleetOf : Fleet where
  reg := ⟨[], departed names, false, 0⟩
  grace := 0
  orders := ⟨ascending, ascending⟩
  now := 0
  named id e h := by
    obtain ⟨hempty, hid⟩ := departed_named names id e h
    unfold Reg.mergedLocked
    rw [if_pos hempty]
    exact hid

def plainTexts : Texts := ⟨fun s _ => s, fun s => s, fun s => s⟩

/-- A credential for one cluster. -/
def onlyEast : Principal :=
  { kid := "k", name := "n", cls := .agent, role := .viewer, epoch := 0
    scope := some
      { role := .viewer
        clusters := ⟨["east"], ∅, []⟩
        tools := ⟨[], []⟩
        limits := ⟨0, 0, 0, 0, 0, 0, 0, 0⟩ } }

/-- Twenty names that are nearer to `w` than `east` is. -/
def crowd : List String :=
  ["a", "b", "c", "d", "e", "f", "g", "h", "i", "j", "k", "l", "m", "n", "o", "p", "q", "r", "s",
    "t"]

/-- Nineteen of them leave a place. -/
theorem unknown_cluster_errors_agree_beside_nineteen_hidden :
    ∃ e, resolveCluster plainTexts (fleetOf ["east"]) onlyEast "w" = .error e ∧
      resolveCluster plainTexts (fleetOf ("east" :: crowd.tail)) onlyEast "w" = .error e ∧
      e.didYouMean = ["east"] := by
  have hseen : (fleetOf ["east"]).seen onlyEast = ["east"] := by decide +kernel
  have hseen' : (fleetOf ("east" :: crowd.tail)).seen onlyEast = ["east"] := by decide +kernel
  obtain ⟨e, h, h'⟩ := (unknown_cluster_errors_agree_iff_the_cuts_do plainTexts onlyEast "w"
    (fleetOf ["east"]) (fleetOf ("east" :: crowd.tail)) (fun name => by rw [hseen, hseen'])
    (by rw [hseen]; decide)).mpr (.inr (by decide +kernel))
  refine ⟨e, h, h', ?_⟩
  cases h
  decide +kernel

/-- Twenty hidden clusters with nearer names take all the places of the ranking: the
suggestion is gone, and the error tells the caller that they are there. -/
theorem hidden_neighbours_take_the_suggestion_away :
    (fleetOf ["east"]).visible onlyEast = (fleetOf ("east" :: crowd)).visible onlyEast ∧
      "w" ∉ (fleetOf ["east"]).seen onlyEast ∧
      "w" ∉ (fleetOf ("east" :: crowd)).seen onlyEast ∧
      didYouMean plainTexts (fleetOf ["east"]) onlyEast "w" = ["east"] ∧
      didYouMean plainTexts (fleetOf ("east" :: crowd)) onlyEast "w" = [] ∧
      resolveCluster plainTexts (fleetOf ["east"]) onlyEast "w" ≠
        resolveCluster plainTexts (fleetOf ("east" :: crowd)) onlyEast "w" := by
  decide +kernel

end prom_fleet.mcptools
