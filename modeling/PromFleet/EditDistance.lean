-- The distance between two lists in single edits: an element is inserted, deleted or put in
-- the place of another one. The recursion on the first elements computes the least number of
-- edits that turn one list into the other.
import Mathlib.Order.Bounds.Basic

namespace edit_distance

variable {α : Type*}

/-- One edit, at any place of the list. -/
inductive Edit : List α → List α → Prop where
  | insertion (l r : List α) (c : α) : Edit (l ++ r) (l ++ c :: r)
  | deletion (l r : List α) (c : α) : Edit (l ++ c :: r) (l ++ r)
  | substitution (l r : List α) (c d : α) : Edit (l ++ c :: r) (l ++ d :: r)

/-- So many edits, one after another. -/
inductive Edits : Nat → List α → List α → Prop where
  | refl (a : List α) : Edits 0 a a
  | tail {n : Nat} {a b c : List α} (h : Edits n a b) (e : Edit b c) : Edits (n + 1) a c

variable {a b c : List α} {n m : Nat}

namespace Edit

theorem symm (h : Edit a b) : Edit b a := by
  cases h with
  | insertion l r c => exact .deletion l r c
  | deletion l r c => exact .insertion l r c
  | substitution l r c d => exact .substitution l r d c

theorem cons (x : α) (h : Edit a b) : Edit (x :: a) (x :: b) := by
  cases h with
  | insertion l r c => exact .insertion (x :: l) r c
  | deletion l r c => exact .deletion (x :: l) r c
  | substitution l r c d => exact .substitution (x :: l) r c d

theorem reverse (h : Edit a b) : Edit a.reverse b.reverse := by
  cases h with
  | insertion l r c => simpa using Edit.insertion r.reverse l.reverse c
  | deletion l r c => simpa using Edit.deletion r.reverse l.reverse c
  | substitution l r c d => simpa using Edit.substitution r.reverse l.reverse c d

end Edit

namespace Edits

theorem trans (h : Edits n a b) (h' : Edits m b c) : Edits (n + m) a c := by
  induction h' with
  | refl => exact h
  | tail _ e ih => exact (ih h).tail e

theorem single (e : Edit a b) : Edits 1 a b := (Edits.refl a).tail e

theorem head (e : Edit a b) (h : Edits n b c) : Edits (n + 1) a c :=
  Nat.add_comm 1 n ▸ (single e).trans h

theorem symm (h : Edits n a b) : Edits n b a := by
  induction h with
  | refl => exact .refl _
  | tail _ e ih => exact ih.head e.symm

theorem comm : Edits n a b ↔ Edits n b a := ⟨symm, symm⟩

theorem map {f : List α → List α} (hf : ∀ {a b}, Edit a b → Edit (f a) (f b))
    (h : Edits n a b) : Edits n (f a) (f b) := by
  induction h with
  | refl => exact .refl _
  | tail _ e ih => exact ih.tail (hf e)

theorem reverse_iff : Edits n a.reverse b.reverse ↔ Edits n a b :=
  ⟨fun h => by simpa using h.map Edit.reverse, fun h => h.map Edit.reverse⟩

theorem of_nil : ∀ b : List α, Edits b.length [] b
  | [] => .refl []
  | y :: b => (of_nil b).tail (.insertion [] b y)

theorem eq_of_zero (h : Edits 0 a b) : a = b := by
  cases h
  rfl

end Edits

/-- A function that gives the least number of edits, with the laws of a distance. -/
structure IsEditDistance (f : List α → List α → Nat) : Prop where
  least : ∀ a b, IsLeast {n | Edits n a b} (f a b)
  symm : ∀ a b, f a b = f b a
  triangle : ∀ a b c, f a c ≤ f a b + f b c
  zero : ∀ a b, f a b = 0 ↔ a = b

theorem IsEditDistance.of_least {f : List α → List α → Nat}
    (h : ∀ a b, IsLeast {n | Edits n a b} (f a b)) : IsEditDistance f where
  least := h
  symm a b := le_antisymm ((h a b).2 (h b a).1.symm) ((h b a).2 (h a b).1.symm)
  triangle a b c := (h a c).2 ((h a b).1.trans (h b c).1)
  zero a b := by
    constructor
    · intro h0
      exact Edits.eq_of_zero (h0 ▸ (h a b).1)
    · rintro rfl
      exact Nat.le_zero.mp ((h a a).2 (Edits.refl a))

/-! ## The recursion -/

variable [DecidableEq α]

def distance : List α → List α → Nat
  | [], b => b.length
  | a, [] => a.length
  | x :: a, y :: b =>
    min (min (distance a (y :: b) + 1) (distance (x :: a) b + 1))
      (distance a b + if x = y then 0 else 1)
termination_by a b => a.length + b.length

@[simp] theorem distance_nil (a : List α) : distance a [] = a.length := by
  cases a <;> simp [distance]

@[simp] theorem nil_distance (b : List α) : distance [] b = b.length := by
  simp [distance]

theorem distance_self (a : List α) : distance a a = 0 := by
  induction a with
  | nil => simp
  | cons x a ih => simp [distance, ih]

theorem distance_cons_le (x : α) (a b : List α) : distance (x :: a) b ≤ distance a b + 1 := by
  cases b <;> simp [distance]

theorem distance_le_cons (a : List α) (y : α) (b : List α) :
    distance a (y :: b) ≤ distance a b + 1 := by
  cases a <;> simp [distance]

/-- An edit moves a list by one at most, so it does so after a beginning that is shared. -/
theorem distance_append_le (h : ∀ a, distance a c ≤ distance a b + 1) (l a : List α) :
    distance a (l ++ c) ≤ distance a (l ++ b) + 1 := by
  induction l generalizing a with
  | nil => exact h a
  | cons x l ih =>
    induction a with
    | nil => simpa using ih []
    | cons y a iha =>
      have h₁ := ih (y :: a)
      have h₂ := ih a
      simp only [List.cons_append, distance] at iha ⊢
      omega

theorem distance_edit (h : Edit b c) (a : List α) : distance a c ≤ distance a b + 1 := by
  cases h with
  | insertion l r c => exact distance_append_le (fun a => distance_le_cons a c r) l a
  | deletion l r c =>
    refine distance_append_le (fun a => ?_) l a
    induction a with
    | nil => simp; omega
    | cons y a ih =>
      have := distance_cons_le y a r
      simp only [distance]
      omega
  | substitution l r c d =>
    refine distance_append_le (fun a => ?_) l a
    induction a with
    | nil => simp
    | cons y a ih =>
      simp only [distance]
      split_ifs <;> omega

theorem distance_le (h : Edits n a b) : distance a b ≤ n := by
  induction h with
  | refl a => exact (distance_self a).le
  | tail _ e ih => exact (distance_edit e _).trans (Nat.succ_le_succ ih)

theorem edits_distance (a b : List α) : Edits (distance a b) a b := by
  fun_induction distance a b with
  | case1 b => exact .of_nil b
  | case2 a => exact (Edits.of_nil a).symm
  | case3 x a y b hdelete hinsert hkeep =>
    -- The recursion takes the shortest of three ways from `x :: a` to `y :: b`.
    replace hdelete := hdelete.head (.deletion [] a x)
    replace hinsert := hinsert.tail (.insertion [] b y)
    replace hkeep : Edits (distance a b + if x = y then 0 else 1) (x :: a) (y :: b) := by
      have hcons := hkeep.map (Edit.cons x)
      split
      · rename_i hxy
        exact hxy ▸ hcons
      · exact hcons.tail (.substitution [] b x y)
    exact min_rec' (Edits · _ _) (min_rec' (Edits · _ _) hdelete hinsert) hkeep

theorem isLeast_distance (a b : List α) : IsLeast {n | Edits n a b} (distance a b) :=
  ⟨edits_distance a b, fun _ h => distance_le h⟩

end edit_distance
