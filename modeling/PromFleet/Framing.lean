-- Codes that can be read off the front of a text: no code word goes on as another one. A word
-- with its length before it has this property, and then a list of words can be put together
-- without any mark between them.
import Mathlib.Data.List.Basic

namespace prom_fleet.framing

open List

variable {α β : Type}

/-- Of the code words of the values in `D`, the one at the front of a text can be told, and
so can what follows it. -/
def PrefixFree (D : α → Prop) (enc : α → List β) : Prop :=
  ∀ a b s t, D a → D b → enc a ++ s = enc b ++ t → a = b ∧ s = t

namespace PrefixFree

variable {D : α → Prop} {enc : α → List β}

theorem of_length {n : Nat} (hlen : ∀ a, (enc a).length = n)
    (hinj : ∀ a b, D a → D b → enc a = enc b → a = b) : PrefixFree D enc := by
  intro a b s t ha hb he
  have hsame : (enc a).length = (enc b).length := by rw [hlen, hlen]
  obtain ⟨hword, hrest⟩ := append_inj he hsame
  exact ⟨hinj a b ha hb hword, hrest⟩

theorem framed {n : Nat} {len : Nat → List β} (h : PrefixFree (fun m => m ≤ n) len) :
    PrefixFree (fun f : List β => f.length ≤ n) fun f => len f.length ++ f := by
  intro f g s t hf hg he
  rw [append_assoc, append_assoc] at he
  obtain ⟨hlen, hrest⟩ := h _ _ _ _ hf hg he
  exact append_inj hrest hlen

/-- Words that are put together one after the other, as many as there are. -/
theorem flatMap_inj (h : PrefixFree D enc) (hne : ∀ a, enc a ≠ []) {l l' : List α}
    (hl : ∀ a ∈ l, D a) (hl' : ∀ a ∈ l', D a) (he : l.flatMap enc = l'.flatMap enc) : l = l' := by
  induction l generalizing l' with
  | nil =>
    cases l' with
    | nil => rfl
    | cons b l' =>
      rw [flatMap_nil, flatMap_cons] at he
      exact absurd (append_eq_nil_iff.mp he.symm).1 (hne b)
  | cons a l ih =>
    cases l' with
    | nil =>
      rw [flatMap_nil, flatMap_cons] at he
      exact absurd (append_eq_nil_iff.mp he).1 (hne a)
    | cons b l' =>
      rw [flatMap_cons, flatMap_cons] at he
      obtain ⟨hab, hrest⟩ := h a b _ _ (hl a mem_cons_self) (hl' b mem_cons_self) he
      rw [hab, ih (fun x hx => hl x (mem_cons_of_mem _ hx))
        (fun x hx => hl' x (mem_cons_of_mem _ hx)) hrest]

end PrefixFree

/-! ## Lengths in four bytes -/

/-- `binary.BigEndian.PutUint32`. -/
def putUint32 (v : UInt32) : List UInt8 :=
  [(v >>> 24).toUInt8, (v >>> 16).toUInt8, (v >>> 8).toUInt8, v.toUInt8]

@[simp] theorem length_putUint32 (v : UInt32) : (putUint32 v).length = 4 := rfl

theorem putUint32_inj {v w : UInt32} (h : putUint32 v = putUint32 w) : v = w := by
  simp only [putUint32, List.cons.injEq, and_true, ← UInt8.toNat_inj] at h
  obtain ⟨h3, h2, h1, h0⟩ := h
  simp only [UInt32.toNat_toUInt8, UInt32.toNat_shiftRight] at h3 h2 h1 h0
  have hv := v.toNat_lt
  have hw := w.toNat_lt
  rw [← UInt32.toNat_inj]
  simp [Nat.shiftRight_eq_div_pow] at h3 h2 h1 h0
  omega

theorem prefixFree_putUint32 {n : Nat} (hn : n < UInt32.size) :
    PrefixFree (fun m => m ≤ n) fun m => putUint32 (UInt32.ofNat m) := by
  refine PrefixFree.of_length (fun m => length_putUint32 _) fun a b ha hb he => ?_
  have hsame := congrArg UInt32.toNat (putUint32_inj he)
  rwa [UInt32.toNat_ofNat_of_lt' (Nat.lt_of_le_of_lt ha hn),
    UInt32.toNat_ofNat_of_lt' (Nat.lt_of_le_of_lt hb hn)] at hsame

end prom_fleet.framing
