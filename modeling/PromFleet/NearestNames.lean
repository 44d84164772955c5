-- The distances behind the proposals for a mistyped name. The hub has two routines, for
-- clusters and for metrics. Each keeps one row of the table of distances and writes the next
-- row into it; the end of the last row is the least number of edits.
import PromFleet.EditDistance
import PromFleet.ToolGuard

namespace prom_fleet.mcptools

open edit_distance List

variable {α : Type} [DecidableEq α]

/-- `editDistance` has the body of `levenshtein`. -/
def editDistance (a b : List α) : Nat := levenshtein a b

/-- A row of the table behind its column for `q`: the distances from `p` to `q` with more and
more of the elements. The elements that are read stand in `p` and `q` from the last one on. -/
def rowAfter (p : List α) : List α → List α → List Nat
  | _, [] => []
  | q, y :: b => distance p (y :: q) :: rowAfter p (y :: q) b

/-- The inner loop writes the next row. -/
theorem levenshteinRow_rowAfter (x : α) (p q b : List α) :
    levenshteinRow x b (rowAfter p q b) (distance p q) (distance (x :: p) q) =
      rowAfter (x :: p) q b := by
  induction b generalizing q with
  | nil => rfl
  | cons y b ih =>
    have hnew : distance (x :: p) (y :: q) = min (min (distance p (y :: q) + 1)
        (distance (x :: p) q + 1)) (distance p q + if x = y then 0 else 1) := by
      rw [distance]
    simp only [rowAfter, levenshteinRow, ← hnew, ih]

theorem levenshteinRows_rowAfter (a b p : List α) :
    levenshteinRows b a (p.length + 1) (p.length :: rowAfter p [] b) =
      (a.reverse ++ p).length :: rowAfter (a.reverse ++ p) [] b := by
  induction a generalizing p with
  | nil => rfl
  | cons x a ih =>
    have hrow := levenshteinRow_rowAfter x p [] b
    rw [distance_nil, distance_nil] at hrow
    rw [levenshteinRows, List.tail_cons, List.headI_cons, ← List.length_cons, hrow, ih (x :: p)]
    simp

theorem rowAfter_nil (q b : List α) : rowAfter [] q b = range' (q.length + 1) b.length := by
  induction b generalizing q with
  | nil => rfl
  | cons y b ih => simp [rowAfter, ih, range'_succ]

theorem getLastD_rowAfter (p q b : List α) :
    (distance p q :: rowAfter p q b).getLastD 0 = distance p (b.reverse ++ q) := by
  induction b generalizing q with
  | nil => rfl
  | cons y b ih => simpa [rowAfter] using ih (y :: q)

/-- From the longer list to the shorter one. -/
theorem lastRow_eq (a b : List α) :
    (levenshteinRows b a 1 (range (b.length + 1))).getLastD 0 = distance a.reverse b.reverse := by
  have hfirst : range (b.length + 1) = 0 :: rowAfter [] [] b := by
    rw [rowAfter_nil, range_eq_range', range'_succ]
    rfl
  have hrows := levenshteinRows_rowAfter a b []
  have hlast := getLastD_rowAfter a.reverse [] b
  simp only [length_nil, append_nil, distance_nil] at hrows hlast
  rw [hfirst, hrows, hlast]

theorem isLeast_levenshtein (a b : List α) : IsLeast {n | Edits n a b} (levenshtein a b) := by
  have hlast (a b : List α) : IsLeast {n | Edits n a b} (if b = [] then a.length
      else (levenshteinRows b a 1 (range (b.length + 1))).getLastD 0) := by
    have hleast := isLeast_distance a.reverse b.reverse
    simp only [Edits.reverse_iff] at hleast
    split
    · rename_i hb
      simpa [hb] using hleast
    · rwa [lastRow_eq]
  by_cases hshort : a.length < b.length
  · simpa only [levenshtein, hshort, if_true, Edits.comm (a := a)] using hlast b a
  · simpa only [levenshtein, hshort, if_false] using hlast a b

/-- Both routines give the least number of insertions, deletions and substitutions that turn
one list into the other. -/
theorem both_routines_compute_the_edit_distance :
    IsEditDistance (@levenshtein α _) ∧ IsEditDistance (@editDistance α _) :=
  ⟨.of_least isLeast_levenshtein, .of_least isLeast_levenshtein⟩

example : editDistance "kitten".toList "sitting".toList = 3 := by decide +kernel

end prom_fleet.mcptools
