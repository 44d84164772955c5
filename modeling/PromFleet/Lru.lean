-- A bounded map that drops its least recently used entry. The map and the
-- recency list of the usual implementation are one list here, the entry that was
-- used last in front.
import Mathlib.Data.List.Nodup

namespace prom_fleet.lru

open List

/-- At most `cap` entries, one for each key. -/
structure Lru (K V : Type) where
  cap : Nat
  entries : List (K × V)
  nodup : (entries.map Prod.fst).Nodup
  length_le : entries.length ≤ cap

variable {K V : Type}

/-- An empty cache. A capacity below 1 is raised to 1. -/
def new (capacity : Nat) : Lru K V :=
  { cap := max capacity 1, entries := [], nodup := nodup_nil, length_le := Nat.zero_le _ }

variable [DecidableEq K]

variable (k : K)

def without (es : List (K × V)) : List (K × V) := es.filter fun e => decide (e.1 ≠ k)

theorem nodup_without {es : List (K × V)} (h : (es.map Prod.fst).Nodup) :
    ((without k es).map Prod.fst).Nodup := h.sublist (filter_sublist.map _)

theorem not_mem_without (es : List (K × V)) : k ∉ (without k es).map Prod.fst := by
  simp [without]

/-- Insert or replace, and evict what is over the capacity. -/
def put (v : V) (c : Lru K V) : Lru K V :=
  { cap := c.cap
    entries := ((k, v) :: without k c.entries).take c.cap
    nodup := by
      have hcons : (((k, v) :: without k c.entries).map Prod.fst).Nodup :=
        nodup_cons.mpr ⟨not_mem_without k c.entries, nodup_without k c.nodup⟩
      exact hcons.sublist ((take_sublist _ _).map _)
    length_le := length_take_le _ _ }

def remove (c : Lru K V) : Lru K V :=
  { cap := c.cap
    entries := without k c.entries
    nodup := nodup_without k c.nodup
    length_le := Nat.le_trans (length_filter_le _ _) c.length_le }

def purge (c : Lru K V) : Lru K V :=
  { cap := c.cap, entries := [], nodup := nodup_nil, length_le := Nat.zero_le _ }

def find (c : Lru K V) : Option V :=
  (c.entries.find? fun e => decide (e.1 = k)).map Prod.snd

/-- The value under the key, which becomes the one that was used last. -/
def get (c : Lru K V) : Option V × Lru K V :=
  match find k c with
  | none => (none, c)
  | some v => (some v, put k v c)

/-! ## Where the entries come from -/

variable {c : Lru K V} {k : K} {v : V}

theorem mem_of_find (h : find k c = some v) : (k, v) ∈ c.entries := by
  obtain ⟨⟨k', v'⟩, he, rfl⟩ := Option.map_eq_some_iff.mp h
  have hk : k' = k := by simpa using List.find?_some he
  subst hk
  exact mem_of_find?_eq_some he

theorem not_mem_of_find (h : find k c = none) : (k, v) ∉ c.entries := by
  intro hmem
  have hno := List.find?_eq_none.mp (Option.map_eq_none_iff.mp h) (k, v) hmem
  exact hno (decide_eq_true rfl)

variable {e : K × V}

theorem mem_put (h : e ∈ (put k v c).entries) : e = (k, v) ∨ e ∈ c.entries := by
  rcases mem_cons.mp (mem_of_mem_take h) with rfl | h
  · exact .inl rfl
  · exact .inr (mem_filter.mp h).1

theorem mem_put_self {v' : V} (h : (k, v') ∈ (put k v c).entries) : v' = v := by
  rcases mem_cons.mp (mem_of_mem_take h) with heq | hold
  · exact congrArg Prod.snd heq
  · exact absurd (mem_map_of_mem hold) (not_mem_without k c.entries)

theorem mem_remove (h : e ∈ (remove k c).entries) : e ∈ c.entries := (mem_filter.mp h).1

theorem get_value : (get k c).1 = find k c := by
  unfold get
  split <;> simp [*]

theorem mem_get (h : e ∈ (get k c).2.entries) : e ∈ c.entries := by
  unfold get at h
  split at h
  · exact h
  rename_i v hv
  rcases mem_put h with rfl | h
  · exact mem_of_find hv
  · exact h

end prom_fleet.lru
