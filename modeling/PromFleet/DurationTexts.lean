-- The texts of durations: what `FormatDuration` prints for a whole number of milliseconds
-- is read back as the same duration, and the allow-list accepts it as a parameter.
import PromFleet.PromAPI
import Mathlib.Data.Nat.Digits.Defs

namespace prom_fleet.render

open gotime List

/-! ## Printed durations -/

/-- The units that `FormatDuration` prints. -/
def printedUnits : List (Int × String) :=
  [(day, "d"), (hour, "h"), (minute, "m"), (second, "s"), (1000000, "ms")]

theorem unit_pos : ∀ u ∈ printedUnits, 1 ≤ u.1 := by
  decide

variable {L : GoLib} {d : Int}

/-- A positive number of milliseconds is printed as one number and one unit. -/
theorem formatDuration_whole (hpos : 0 < d) (hwhole : d % 1000000 = 0) :
    ∃ u ∈ printedUnits, ∃ n : Nat, n * u.1 = d ∧ formatDuration d = toString n ++ u.2 := by
  unfold formatDuration
  rw [if_neg (by omega)]
  split
  · rename_i u hfind
    have hu := List.find?_some hfind
    rw [decide_eq_true_eq] at hu
    have hmem := mem_of_find?_eq_some hfind
    have hsize := unit_pos u hmem
    have hquot : 0 ≤ d / u.1 := Int.ediv_nonneg hpos.le (by omega)
    refine ⟨u, hmem, (d / u.1).toNat, ?_, ?_⟩
    · rw [Int.toNat_of_nonneg hquot]
      exact Int.ediv_mul_cancel_of_emod_eq_zero hu.2
    · rw [Int.toString_eq_repr, Int.repr_eq_if, if_pos hquot]
      rfl
  · rename_i hfind
    have hlast := List.find?_eq_none.mp hfind (1000000, "ms") (by simp)
    simp only [decide_eq_true_eq] at hlast
    omega

variable {u : Int × String}

theorem factor_le (hu : u ∈ printedUnits) (n : Nat) : (n : Int) ≤ n * u.1 := by
  have hmul : (n : Int) * 1 ≤ n * u.1 :=
    mul_le_mul_of_nonneg_left (unit_pos u hu) (Int.natCast_nonneg n)
  omega

theorem toList_printed (n : Nat) (u : String) :
    (toString n ++ u).toList = Nat.toDigits 10 n ++ u.toList := by
  rw [String.toList_append, Nat.toString_eq_ofList_toDigits, String.toList_ofList]

theorem printed_ne_empty (n : Nat) (u : String) : toString n ++ u ≠ "" := by
  intro hempty
  have hlist := congrArg String.toList hempty
  rw [toList_printed] at hlist
  exact Nat.toDigits_ne_nil (append_eq_nil_iff.mp hlist).1

variable {c : Char} {n : Nat}

theorem isDigit_toDigits (h : c ∈ Nat.toDigits 10 n) : c.isDigit = true :=
  Nat.isDigit_of_mem_toDigits (by decide) (by decide) h

variable {l rest : List Char}

/-- The digits of a text that begins with a number end where the number does. -/
theorem takeWhile_digits (hl : ∀ c ∈ l, c.isDigit = true)
    (hrest : rest.takeWhile Char.isDigit = []) : (l ++ rest).takeWhile Char.isDigit = l := by
  rw [takeWhile_append_of_pos hl, hrest, append_nil]

theorem dropWhile_digits (hl : ∀ c ∈ l, c.isDigit = true)
    (hrest : rest.takeWhile Char.isDigit = []) : (l ++ rest).dropWhile Char.isDigit = rest := by
  rw [dropWhile_append_of_pos hl]
  have := takeWhile_append_dropWhile (p := Char.isDigit) (l := rest)
  rwa [hrest, nil_append] at this

theorem unit_takeWhile : ∀ u ∈ printedUnits, u.2.toList.takeWhile Char.isDigit = [] := by
  decide

/-! ## Reading a printed duration -/

theorem isDigit_range {c : Char} (h : c.isDigit = true) : 48 ≤ c.toNat ∧ c.toNat ≤ 57 := by
  simpa [Char.isDigit, UInt32.le_iff_toNat_le] using h

theorem foldl_digits (hl : ∀ c ∈ l, c.isDigit = true) (m : Nat) :
    l.foldl (fun (n : Int) c => 10 * n + (c.toNat - 48 : Int)) m = Nat.ofDigitChars 10 l m := by
  induction l generalizing m with
  | nil => simp [Nat.ofDigitChars_nil]
  | cons c l ih =>
    have hc := (isDigit_range (hl c mem_cons_self)).1
    rw [foldl_cons, Nat.ofDigitChars_cons, ← ih fun c hc => hl c (mem_cons_of_mem _ hc)]
    congr 1
    have hzero : '0'.toNat = 48 := rfl
    push_cast [Nat.cast_sub hc]
    rfl

/-- A number and its unit. -/
structure Group where
  digits : List Char
  unit : List Char × Int
  digits_ne : digits ≠ []
  isDigit : ∀ c ∈ digits, c.isDigit = true
  unit_mem : unit ∈ durationUnits

namespace Group

variable (g : Group)

def text : List Char := g.digits ++ g.unit.1

def count : Nat := Nat.ofDigitChars 10 g.digits 0

/-- The exact number of nanoseconds. -/
def value : Int := g.count * g.unit.2

theorem count_le_value : (g.count : Int) ≤ g.value := by
  have hunit : ∀ u ∈ durationUnits, 1 ≤ u.2 := by decide
  exact le_mul_of_one_le_right (Int.natCast_nonneg _) (hunit _ g.unit_mem)

theorem value_nonneg : 0 ≤ g.value := (Int.natCast_nonneg _).trans g.count_le_value

theorem atoi_digits :
    atoi g.digits = if (g.count : Int) ≤ maxDuration then some (g.count : Int) else none := by
  unfold atoi
  have hfold := foldl_digits g.isDigit 0
  simp only [Nat.cast_zero] at hfold
  rw [hfold]
  rfl

/-- The loop reads a group in one round, unless `Atoi` fails. -/
theorem durationTerm_text (hrest : ∀ c ∈ rest.head?, c.isDigit = true) :
    durationTerm (g.text ++ rest) =
      if (g.count : Int) ≤ maxDuration then some (wrap64 g.value, rest) else none := by
  have hunit : (g.unit.1 ++ rest).takeWhile Char.isDigit = [] ∧
      durationUnits.find? (fun u => u.1.isPrefixOf (g.unit.1 ++ rest)) = some g.unit := by
    have hmem := g.unit_mem
    simp only [durationUnits, mem_cons, not_mem_nil, or_false] at hmem
    rcases hmem with h | h | h | h | h | h | h <;> rw [h] <;> refine ⟨rfl, ?_⟩
    -- only `m` must be told from `ms`
    case inr.inr.inl =>
      cases rest with
      | nil => rfl
      | cons c rest =>
        have hc : 's' ≠ c := by
          rintro rfl
          exact absurd (hrest 's' rfl) (by decide)
        simp [durationUnits, hc]
    all_goals rfl
  unfold durationTerm
  dsimp only
  rw [text, append_assoc, takeWhile_digits g.isDigit hunit.1, dropWhile_digits g.isDigit hunit.1,
    if_neg g.digits_ne, g.atoi_digits, hunit.2]
  by_cases hcount : (g.count : Int) ≤ maxDuration <;> simp [hcount, value]

end Group

variable (gs : List Group)

def groupsText : List Char := gs.flatMap Group.text

def groupsValue : List Group → Int
  | [] => 0
  | g :: gs => g.value + groupsValue gs

theorem groupsValue_nonneg : ∀ gs, 0 ≤ groupsValue gs
  | [] => le_rfl
  | g :: gs => Int.add_nonneg g.value_nonneg (groupsValue_nonneg gs)

theorem head?_groupsText : ∀ c ∈ (groupsText gs).head?, c.isDigit = true := by
  cases gs with
  | nil => simp [groupsText]
  | cons g gs =>
    obtain ⟨d, digits, hd⟩ := exists_cons_of_ne_nil g.digits_ne
    have := g.isDigit d (by simp [hd])
    simpa [groupsText, Group.text, hd]

theorem durationTerms_succ {rounds : Nat} {total : Int} (hl : l ≠ []) :
    durationTerms (rounds + 1) l total = (durationTerm l).bind fun x =>
      durationTerms rounds x.2 (wrap64 (total + x.1)) := by
  cases l with
  | nil => exact absurd rfl hl
  | cons c l =>
    simp only [durationTerms]
    cases durationTerm (c :: l) <;> rfl

/-- The loop adds the values up in 64 bits. -/
theorem durationTerms_groupsText {rounds : Nat} {total : Int}
    (hrounds : (groupsText gs).length ≤ rounds)
    (htotal : minDuration ≤ total ∧ total ≤ maxDuration) :
    durationTerms rounds (groupsText gs) total =
      if ∀ g ∈ gs, (g.count : Int) ≤ maxDuration then some (wrap64 (total + groupsValue gs))
      else none := by
  induction gs generalizing rounds total with
  | nil =>
    rw [groupsValue, Int.add_zero, wrap64_of_mem htotal.1 htotal.2]
    cases rounds <;> simp [groupsText, durationTerms]
  | cons g gs ih =>
    have hlen := length_pos_of_ne_nil g.digits_ne
    have hsum : wrap64 (wrap64 (total + wrap64 g.value) + groupsValue gs) =
        wrap64 (total + groupsValue (g :: gs)) := by
      unfold wrap64
      rw [groupsValue]
      omega
    rw [groupsText, flatMap_cons, ← groupsText] at hrounds ⊢
    rw [length_append, Group.text, length_append] at hrounds
    obtain ⟨rounds, rfl⟩ : ∃ n, rounds = n + 1 := ⟨rounds - 1, by omega⟩
    rw [durationTerms_succ (by simp [Group.text, g.digits_ne]),
      g.durationTerm_text (head?_groupsText gs)]
    by_cases hg : (g.count : Int) ≤ maxDuration
    · rw [if_pos hg, Option.bind_some, ih (by omega) (wrap64_mem _), hsum]
      simp [hg]
    · simp [hg]

theorem trimSpace_of_plain {s : String} (h : ∀ c ∈ s.toList, isSpace c = false) :
    trimSpace s = s := by
  have hdrop : s.toList.dropWhile isSpace = s.toList := by
    cases hs : s.toList with
    | nil => rfl
    | cons c rest =>
      have := h c (by rw [hs]; exact mem_cons_self)
      simp [this]
  have hrdrop : s.toList.rdropWhile isSpace = s.toList := by
    refine rdropWhile_eq_self_iff.mpr fun hne => ?_
    rw [h _ (getLast_mem hne)]
    decide
  unfold trimSpace
  rw [hdrop, hrdrop, String.ofList_toList]

theorem groupsText_char {gs : List Group} (hc : c ∈ groupsText gs) :
    (48 ≤ c.toNat ∧ c.toNat ≤ 57) ∨ (97 ≤ c.toNat ∧ c.toNat ≤ 122) := by
  obtain ⟨g, -, hc⟩ := mem_flatMap.mp hc
  rcases mem_append.mp hc with hc | hc
  · exact .inl (isDigit_range (g.isDigit c hc))
  · have hsmall : (durationUnits.all fun u => u.1.all fun c =>
        decide (97 ≤ c.toNat ∧ c.toNat ≤ 122)) = true := by decide +kernel
    exact .inr (of_decide_eq_true (all_eq_true.mp (all_eq_true.mp hsmall _ g.unit_mem) c hc))

variable {gs : List Group}

/-- `ParsePromDuration` reads one group after another. -/
theorem parsePromDuration_groupsText (hgs : gs ≠ [])
    (hfloat : L.parseFloat (String.ofList (groupsText gs)) = none) :
    parsePromDuration L (String.ofList (groupsText gs)) =
      if ∀ g ∈ gs, (g.count : Int) ≤ maxDuration then some (wrap64 (groupsValue gs))
      else none := by
  have hplain : ∀ c ∈ (String.ofList (groupsText gs)).toList, isSpace c = false := by
    intro c hc
    have := groupsText_char (String.toList_ofList ▸ hc)
    simp only [isSpace, Bool.or_eq_false_iff, Bool.and_eq_false_iff, decide_eq_false_iff_not]
    omega
  have hne : groupsText gs ≠ [] := by
    obtain ⟨g, gs, rfl⟩ := exists_cons_of_ne_nil hgs
    simp [groupsText, Group.text, g.digits_ne]
  have hloop : durationTerms _ (groupsText gs) 0 = _ :=
    durationTerms_groupsText gs le_rfl (by decide)
  rw [Int.zero_add] at hloop
  unfold parsePromDuration
  dsimp only
  rw [trimSpace_of_plain hplain, if_neg (by simpa using hne), hfloat, String.toList_ofList]
  exact hloop

theorem count_le_groupsValue : ∀ {gs}, ∀ g ∈ gs, (g.count : Int) ≤ groupsValue gs
  | h :: gs, g, hg => by
    have hhead := h.count_le_value
    have hnonneg := h.value_nonneg
    have hrest := groupsValue_nonneg gs
    rw [groupsValue]
    rcases mem_cons.mp hg with rfl | hg
    · omega
    · have := count_le_groupsValue g hg
      omega

theorem parsePromDuration_fits (hgs : gs ≠ [])
    (hfloat : L.parseFloat (String.ofList (groupsText gs)) = none)
    (hfit : groupsValue gs ≤ maxDuration) :
    parsePromDuration L (String.ofList (groupsText gs)) = some (groupsValue gs) := by
  have hnonneg := groupsValue_nonneg gs
  rw [parsePromDuration_groupsText hgs hfloat,
    if_pos fun g hg => (count_le_groupsValue g hg).trans hfit,
    wrap64_of_mem (le_trans (by decide) hnonneg) hfit]

/-- What is assumed of `strconv.ParseFloat`: a text that ends in a unit is no float. -/
def NoUnitFloats (L : GoLib) : Prop :=
  ∀ s : String, ∀ c ∈ ['d', 'h', 'm', 's'], s.toList.getLast? = some c → L.parseFloat s = none

theorem NoUnitFloats.printed (hL : NoUnitFloats L) (hu : u ∈ printedUnits) (n : Nat) :
    L.parseFloat (toString n ++ u.2) = none := by
  have hunits : ∀ u ∈ printedUnits, ∃ c ∈ ['d', 'h', 'm', 's'], u.2.toList.getLast? = some c := by
    simp [printedUnits]
  obtain ⟨c, hc, hlast⟩ := hunits u hu
  refine hL _ c hc ?_
  rw [toList_printed, getLast?_append, hlast]
  rfl

/-- A printed duration is one group. -/
theorem printed_group (hu : u ∈ printedUnits) (n : Nat) : ∃ g : Group,
    String.ofList (groupsText [g]) = toString n ++ u.2 ∧ groupsValue [g] = n * u.1 := by
  have hunit : ∀ u ∈ printedUnits, (u.2.toList, u.1) ∈ durationUnits := by decide
  refine ⟨⟨Nat.toDigits 10 n, _, Nat.toDigits_ne_nil, fun c hc => isDigit_toDigits hc,
    hunit u hu⟩, ?_, ?_⟩
  · rw [← String.toList_inj, toList_printed, String.toList_ofList]
    simp [groupsText, Group.text]
  · simp [groupsValue, Group.value, Group.count, Nat.ofDigitChars_ten_toDigits]

theorem printed_char (hu : u ∈ printedUnits) (hc : c ∈ (toString n ++ u.2).toList) :
    (48 ≤ c.toNat ∧ c.toNat ≤ 57) ∨ (97 ≤ c.toNat ∧ c.toNat ≤ 122) := by
  obtain ⟨g, htext, -⟩ := printed_group hu n
  rw [← htext, String.toList_ofList] at hc
  exact groupsText_char hc

/-- `ParsePromDuration` inverts `FormatDuration` on whole milliseconds. -/
theorem parsePromDuration_formatDuration (hL : NoUnitFloats L) (hpos : 0 < d)
    (hwhole : d % 1000000 = 0) (hmax : d ≤ maxDuration) :
    parsePromDuration L (formatDuration d) = some d := by
  obtain ⟨u, hu, n, hn, htext⟩ := formatDuration_whole hpos hwhole
  obtain ⟨g, hg, hvalue⟩ := printed_group hu n
  have hparse := parsePromDuration_fits (L := L) (cons_ne_nil g [])
    (hg ▸ hL.printed hu n) (hvalue ▸ hn ▸ hmax)
  rwa [hg, hvalue, hn, ← htext] at hparse

end prom_fleet.render

namespace prom_fleet.promapi

open gotime render

/-! ## Duration parameters -/

theorem durationGroups_nil (units : List (List Char)) : durationGroups units [] = true := by
  induction units with
  | nil => rfl
  | cons unit units ih => simp [durationGroups, ih]

theorem durationGroups_printed {units : List (List Char)} {u : List Char} (hu : u ∈ units)
    (hdigits : u.takeWhile Char.isDigit = []) (n : Nat) :
    durationGroups units (Nat.toDigits 10 n ++ u) = true := by
  induction units with
  | nil => cases hu
  | cons unit units ih =>
    unfold durationGroups
    rw [Bool.or_eq_true]
    rcases List.mem_cons.mp hu with rfl | hu
    · right
      have hn : ∀ c ∈ Nat.toDigits 10 n, c.isDigit = true := fun c hc => isDigit_toDigits hc
      rw [takeWhile_digits hn hdigits, dropWhile_digits hn hdigits, List.drop_length]
      simp [durationGroups_nil, Nat.toDigits_ne_nil]
    · exact .inl (ih hu)

variable {L : Lib} {u : Int × String}

theorem validateDuration_printed (hL : NoUnitFloats L.go) (hu : u ∈ printedUnits) (n : Nat) :
    validateDuration L (toString n ++ u.2) = .ok () := by
  have hgrammar : promDurationRE (toString n ++ u.2) = true := by
    unfold promDurationRE
    rw [toList_printed]
    refine durationGroups_printed ?_ (unit_takeWhile u hu) n
    revert u
    decide
  unfold validateDuration
  rw [if_neg (printed_ne_empty n u.2), hL.printed hu n]
  exact if_pos hgrammar

theorem utf8ByteSize_le (l : List Char) : (String.ofList l).utf8ByteSize ≤ 4 * l.length := by
  induction l with
  | nil => decide
  | cons c l ih =>
    have hsplit : String.ofList (c :: l) = String.singleton c ++ String.ofList l := by
      simp
    have hsize := Char.utf8Size_le_four c
    rw [hsplit, String.utf8ByteSize_append, String.utf8ByteSize_singleton, List.length_cons]
    omega

theorem printed_size (hu : u ∈ printedUnits) {n : Nat} (hn : (n : Int) ≤ maxDuration) :
    (toString n ++ u.2).utf8ByteSize ≤ maxParamBytes := by
  have hdigits : (Nat.toDigits 10 n).length ≤ 20 := by
    rw [Nat.length_toDigits_le_iff (by decide) (by decide)]
    unfold maxDuration at hn
    omega
  have hunit : ∀ u ∈ printedUnits, u.2.toList.length ≤ 2 := by decide
  have hsize := utf8ByteSize_le (toString n ++ u.2).toList
  rw [String.ofList_toList, toList_printed, List.length_append] at hsize
  have := hunit u hu
  unfold maxParamBytes
  omega

theorem indexFunc_eq_none {f : Char → Bool} {s : String} :
    indexFunc f s = none ↔ ∀ c ∈ s.toList, f c = false := by
  unfold indexFunc
  simp

/-- The allow-list accepts a positive number of milliseconds where it wants a duration. -/
theorem validateValue_formatDuration (hL : NoUnitFloats L.go) {p : Param} (hp : p.kind = .duration)
    {d : Int} (hpos : 0 < d) (hwhole : d % 1000000 = 0) (hmax : d ≤ maxDuration) :
    validateValue L p (formatDuration d) = .ok () := by
  obtain ⟨u, hu, n, hn, htext⟩ := formatDuration_whole hpos hwhole
  have hsize := printed_size hu ((factor_le hu n).trans (hn.trans_le hmax))
  have hplain : ∀ c ∈ (toString n ++ u.2).toList, isForbiddenRune c = false := by
    intro c hc
    have := printed_char hu hc
    simp only [isForbiddenRune, Bool.or_eq_false_iff, Bool.and_eq_false_iff,
      decide_eq_false_iff_not]
    omega
  rw [htext]
  unfold validateValue
  simp only [hp, reduceCtorEq, if_false]
  rw [if_neg (by omega), indexFunc_eq_none.mpr hplain]
  exact validateDuration_printed hL hu n

end prom_fleet.promapi
