-- The laws of duration texts: which sums `ParsePromDuration` reads exactly, and that two
-- durations never share a text. `FormatDuration` leaves what is no whole number of
-- milliseconds to Go's own printer, whose texts `ParsePromDuration` does not read.
import PromFleet.DurationTexts
import PromFleet.LookbackLaws

namespace prom_fleet.render

open gotime List

/-! ## Groups -/

section Groups

variable {L : GoLib} {gs : List Group}

/-- What is assumed of `strconv.ParseFloat`: a text of groups is no float. -/
def NoGroupFloats (L : GoLib) : Prop :=
  ∀ gs ≠ [], L.parseFloat (String.ofList (groupsText gs)) = none

/-- A sum that 64 bits hold is read exactly. Any other one is read as another duration,
unless one of its numbers is too large by itself. -/
theorem durations_are_exact_if_they_have_64_bits (hL : NoGroupFloats L) (hgs : gs ≠ []) :
    (groupsValue gs ≤ maxDuration →
      parsePromDuration L (String.ofList (groupsText gs)) = some (groupsValue gs)) ∧
    ((∀ d, parsePromDuration L (String.ofList (groupsText gs)) = some d →
        d = groupsValue gs ∧ 0 ≤ d) ↔
      groupsValue gs ≤ maxDuration ∨ ∃ g ∈ gs, maxDuration < (g.count : Int)) := by
  have hparse := parsePromDuration_groupsText hgs (hL gs hgs)
  have hfits := parsePromDuration_fits hgs (hL gs hgs)
  refine ⟨hfits, fun hexact => ?_, ?_⟩
  · by_contra hbad
    push Not at hbad
    obtain ⟨hsum, -⟩ := hexact _ (hparse.trans (if_pos hbad.2))
    exact absurd (hsum ▸ (wrap64_mem (groupsValue gs)).2) (not_le.mpr hbad.1)
  · rintro (hfit | ⟨g, hg, hbig⟩) d hd
    · cases (hfits hfit).symm.trans hd
      exact ⟨rfl, groupsValue_nonneg gs⟩
    · rw [hparse, if_neg fun h => absurd (h g hg) (not_le.mpr hbig)] at hd
      cases hd

def minuteAndHalf : List Group :=
  [⟨['1'], (['m'], minute), by decide, all_eq_true.mp rfl, by decide⟩,
    ⟨['3', '0'], (['s'], second), by decide, all_eq_true.mp rfl, by decide⟩]

theorem one_minute_and_a_half_is_exact :
    String.ofList (groupsText minuteAndHalf) = "1m30s" ∧
      parsePromDuration mcptools.plainLib (String.ofList (groupsText minuteAndHalf)) =
        some (groupsValue minuteAndHalf) :=
  ⟨by decide, (durations_are_exact_if_they_have_64_bits (fun _ _ => rfl) (by decide)).1 (by decide)⟩

/-- Three hundred years wrap around. -/
theorem three_centuries_are_read_as_a_negative_duration :
    ∃ gs : List Group, gs ≠ [] ∧ String.ofList (groupsText gs) = "300y" ∧
      groupsValue gs = 9460800000000000000 ∧
      parsePromDuration mcptools.plainLib "300y" = some (-8985944073709551616) :=
  ⟨[⟨['3', '0', '0'], (['y'], 365 * day), by decide, all_eq_true.mp rfl, by decide⟩], by simp,
    by decide, by decide, by decide⟩

end Groups

/-! ## Round trips -/

section RoundTrips

variable {L : GoLib} {d d' : Int} {w x y : List Char} {p q v v' : Nat}

theorem fracDigits_digit (p v : Nat) (hw : ∀ c ∈ w, c.isDigit = true) :
    ∀ c ∈ fracDigits p v w, c.isDigit = true := by
  induction p generalizing v w with
  | zero => exact hw
  | succ p ih =>
    refine ih (v / 10) ?_
    split
    · simp
    · simp only [forall_mem_cons, Nat.isDigit_digitChar, decide_eq_true_eq]
      exact ⟨Nat.mod_lt _ (by decide), hw⟩

/-- The digits that are printed end in no zero. -/
theorem getLast?_fracDigits (p v : Nat) (hw : w.getLast? ≠ some '0') :
    (fracDigits p v w).getLast? ≠ some '0' := by
  induction p generalizing v w with
  | zero => exact hw
  | succ p ih =>
    refine ih (v / 10) ?_
    split
    · simp
    · cases w with
      | nil => simp_all
      | cons c w => simpa [getLast?_cons_cons] using hw

/-- The decimals of a number as their value, the first of them with the weight `10 ^ (p - 1)`. -/
def fracValue : Nat → List Char → Nat
  | p + 1, c :: w => (c.toNat - 48) * 10 ^ p + fracValue p w
  | _, _ => 0

theorem fracValue_fracDigits (p k v : Nat) (w : List Char) :
    fracValue (p + k) (fracDigits p v w) = v % 10 ^ p * 10 ^ k + fracValue k w := by
  induction p generalizing k v w with
  | zero => simp [fracDigits, Nat.mod_one]
  | succ p ih =>
    have hdigit : ∀ i < 10, (Nat.digitChar i).toNat - 48 = i := by decide
    have hfirst : fracValue (k + 1) (if w = [] ∧ v % 10 = 0 then []
        else Nat.digitChar (v % 10) :: w) = v % 10 * 10 ^ k + fracValue k w := by
      split
      · rename_i h
        cases k <;> simp [fracValue, h]
      · rw [fracValue, hdigit _ (Nat.mod_lt _ (by decide))]
    rw [fracDigits, Nat.add_right_comm, Nat.add_assoc, ih, hfirst, Nat.pow_succ' (n := p),
      Nat.mod_mul]
    ring

/-- Two numbers with what follows them are told apart by their digits. -/
theorem digits_inj {a b : Nat} (hx : x.takeWhile Char.isDigit = [])
    (hy : y.takeWhile Char.isDigit = []) (h : Nat.toDigits 10 a ++ x = Nat.toDigits 10 b ++ y) :
    a = b ∧ x = y := by
  have hdigits (n : Nat) : ∀ c ∈ Nat.toDigits 10 n, c.isDigit = true := fun _ => isDigit_toDigits
  have hnumber := congrArg (takeWhile Char.isDigit) h
  have hrest := congrArg (dropWhile Char.isDigit) h
  rw [takeWhile_digits (hdigits a) hx, takeWhile_digits (hdigits b) hy] at hnumber
  rw [dropWhile_digits (hdigits a) hx, dropWhile_digits (hdigits b) hy] at hrest
  have := congrArg (fun l => Nat.ofDigitChars 10 l 0) hnumber
  simp only [Nat.ofDigitChars_ten_toDigits] at this
  exact ⟨this, hrest⟩

/-- What follows a number with its decimals, where it begins with no digit and no point. -/
theorem decimal_inj (hx : x.takeWhile (fun c => c.isDigit || c = '.') = [])
    (hy : y.takeWhile (fun c => c.isDigit || c = '.') = [])
    (h : decimalText p v ++ x = decimalText q v' ++ y) : x = y ∧ (p = q → v = v') := by
  have hdigits (p v : Nat) : ∀ c ∈ fracDigits p v [], c.isDigit = true :=
    fracDigits_digit p v (by simp)
  have hhead {x : List Char} (hx : x.takeWhile (fun c => c.isDigit || c = '.') = []) (p v : Nat) :
      ((if fracDigits p v [] = [] then [] else '.' :: fracDigits p v []) ++ x).takeWhile
        Char.isDigit = [] := by
    split
    · cases x with
      | nil => rfl
      | cons c x => simp_all [takeWhile_cons]
    · rfl
  have hplain {x : List Char} (hx : x.takeWhile (fun c => c.isDigit || c = '.') = []) (p v : Nat) :
      ((if fracDigits p v [] = [] then [] else '.' :: fracDigits p v []) ++ x).takeWhile
        (fun c => c.isDigit || c = '.') =
          if fracDigits p v [] = [] then [] else '.' :: fracDigits p v [] := by
    rw [takeWhile_append_of_pos, hx, append_nil]
    have := hdigits p v
    grind
  rw [decimalText, decimalText, append_assoc, append_assoc] at h
  obtain ⟨hwhole, hrest⟩ := digits_inj (hhead hx p v) (hhead hy q v') h
  have hfrac := congrArg (takeWhile fun c => c.isDigit || c = '.') hrest
  rw [hplain hx, hplain hy] at hfrac
  rw [hfrac] at hrest
  refine ⟨append_cancel_left hrest, ?_⟩
  rintro rfl
  have hsame : fracDigits p v [] = fracDigits p v' [] := by grind
  have hvalue := fracValue_fracDigits p 0 v []
  rw [hsame, fracValue_fracDigits] at hvalue
  rw [← Nat.div_add_mod v (10 ^ p), ← Nat.div_add_mod v' (10 ^ p), hwhole]
  omega

theorem head_printedText (l : List (Nat × PrintUnit)) :
    (printedText l).takeWhile (fun c => !c.isDigit) = [] := by
  cases l with
  | nil => rfl
  | cons g l =>
    obtain ⟨c, digits, hc⟩ :=
      exists_cons_of_ne_nil (Nat.toDigits_ne_nil (n := g.1 / 10 ^ g.2.prec) (b := 10))
    have hdigit : c.isDigit = true := isDigit_toDigits (hc ▸ mem_cons_self)
    simp [printedText, decimalText, hc, hdigit]

theorem printedText_inj {l l' : List (Nat × PrintUnit)} (h : printedText l = printedText l') :
    l = l' := by
  have hunits : ∀ a : PrintUnit, a.text ≠ [] ∧ (∀ c ∈ a.text, (!c.isDigit) = true) ∧
      ∀ x, (a.text ++ x).takeWhile (fun c => c.isDigit || c = '.') = [] := by
    intro a
    cases a <;> exact ⟨by decide, by simp [PrintUnit.text], fun _ => rfl⟩
  induction l generalizing l' with
  | nil =>
    cases l' with
    | nil => rfl
    | cons g l' => simp [printedText, (hunits g.2).1] at h
  | cons g l ih =>
    cases l' with
    | nil => simp [printedText, (hunits g.2).1] at h
    | cons g' l' =>
      simp only [printedText, flatMap_cons, append_assoc] at h
      obtain ⟨htail, hvalue⟩ := decimal_inj ((hunits g.2).2.2 _) ((hunits g'.2).2.2 _) h
      have hunit := congrArg (takeWhile fun c => !c.isDigit) htail
      rw [takeWhile_append_of_pos (hunits g.2).2.1, takeWhile_append_of_pos (hunits g'.2).2.1,
        ← printedText, ← printedText, head_printedText, head_printedText, append_nil,
        append_nil] at hunit
      have hsame : g.2 = g'.2 := by
        revert hunit
        generalize g.2 = a
        generalize g'.2 = b
        cases a <;> cases b <;> decide
      rw [hunit] at htail
      rw [ih (append_cancel_left htail), Prod.ext (hvalue (by rw [hsame])) hsame]

/-- The numbers that are printed add up to the duration. -/
def PrintUnit.scale : PrintUnit → Nat
  | m => 60000000000
  | h => 3600000000000
  | _ => 1

theorem sum_printed (u : Nat) : ((printed u).map fun x => x.1 * x.2.scale).sum = u := by
  unfold printed
  dsimp only
  split_ifs
  all_goals simp only [nil_append, map_append, map_cons, map_nil, sum_append, sum_cons, sum_nil,
    PrintUnit.scale]
  all_goals omega

theorem durationString_inj (hpos : 0 < d) (hpos' : 0 < d')
    (h : durationString d = durationString d') : d = d' := by
  unfold durationString at h
  rw [if_neg (by omega), if_neg (by omega), String.ofList_inj] at h
  have := sum_printed d.natAbs
  rw [printedText_inj h, sum_printed] at this
  omega

/-- A number that is not whole has a point, and its last digit is not zero. -/
theorem decimalText_rest (h : v % 10 ^ p ≠ 0) :
    '.' ∈ decimalText p v ∧ (decimalText p v).getLast? ≠ some '0' := by
  have hvalue := fracValue_fracDigits p 0 v []
  have hlast := getLast?_fracDigits p v (w := []) (by simp)
  cases hw : fracDigits p v [] with
  | nil =>
    rw [hw] at hvalue
    cases p <;> simp [fracValue] at hvalue <;> omega
  | cons c w =>
    rw [hw] at hlast
    constructor <;> simp [decimalText, hw, getLast?_append, getLast?_cons] at hlast ⊢
    exact hlast

/-- Where there is a part of a millisecond, the text has a point or a smaller unit, and no zero
stands before its last letter. -/
theorem printed_rest {u : Nat} (h : u % 1000000 ≠ 0) : ∃ x, printedText (printed u) = x ++ ['s'] ∧
    x.getLast? ≠ some '0' ∧ ∃ c ∈ ['.', 'n', 'µ'], c ∈ x := by
  unfold printed
  split
  · omega
  split
  · exact ⟨decimalText 0 u ++ ['n'], by simp [printedText, PrintUnit.text, PrintUnit.prec], by simp,
      'n', by simp⟩
  split
  · exact ⟨decimalText 3 u ++ ['µ'], by simp [printedText, PrintUnit.text, PrintUnit.prec], by simp,
      'µ', by simp⟩
  split
  · exact ⟨decimalText 6 u ++ ['m'], by simp [printedText, PrintUnit.text, PrintUnit.prec], by simp,
      '.', by simp [(decimalText_rest (p := 6) h).1]⟩
  obtain ⟨hpoint, hlast⟩ := decimalText_rest (p := 9) (v := u % 60000000000) (by omega)
  dsimp only
  rw [printedText, flatMap_append, flatMap_singleton, PrintUnit.prec, ← append_assoc]
  refine ⟨_, rfl, ?_, '.', by simp, mem_append_right _ hpoint⟩
  rwa [getLast?_append_of_ne_nil _ (ne_nil_of_mem hpoint)]

/-- Where there is a part of a millisecond, the text is Go's own: nothing is trimmed. -/
theorem formatDuration_rest (hpos : 0 < d) (hrest : d % 1000000 ≠ 0) :
    formatDuration d = durationString d := by
  have hunit : ∀ u ∈ printedUnits, u.1 % 1000000 = 0 := by decide
  have hnone : printedUnits.find? (fun u => decide (u.1 ≤ d ∧ d % u.1 = 0)) = none := by
    refine find?_eq_none.mpr fun u hu hd => hrest ?_
    exact Int.emod_eq_zero_of_dvd ((Int.dvd_of_emod_eq_zero (hunit u hu)).trans
      (Int.dvd_of_emod_eq_zero (of_decide_eq_true hd).2))
  obtain ⟨x, hx, hlast, -⟩ := printed_rest (u := d.natAbs) (by omega)
  unfold printedUnits at hnone
  rw [formatDuration, if_neg (by omega), hnone]
  refine if_neg fun hzero => hlast ?_
  rw [durationString, if_neg (by omega), nil_append, hx, String.toList_ofList] at hzero
  obtain ⟨y, hy⟩ := hzero
  have hy : (y ++ ['0']) ++ ['s'] = x ++ ['s'] := by simpa using hy
  rw [← append_cancel_right hy]
  exact getLast?_concat

/-- Such a text ends in a unit of seconds and has a mark that no sum of groups has. -/
theorem formatDuration_mark (hpos : 0 < d) (hrest : d % 1000000 ≠ 0) :
    ∃ x, printedText (printed d.natAbs) = x ++ ['s'] ∧
      formatDuration d = String.ofList (x ++ ['s']) ∧ ∃ c ∈ ['.', 'n', 'µ'], c ∈ x := by
  obtain ⟨x, hx, -, hmark⟩ := printed_rest (u := d.natAbs) (by omega)
  refine ⟨x, hx, ?_, hmark⟩
  rw [formatDuration_rest hpos hrest, durationString, if_neg (by omega), nil_append, hx]

/-- What `ParsePromDuration` reads has digits and units only. -/
theorem durationTerms_char {rounds : Nat} {l : List Char} {total : Int}
    (h : durationTerms rounds l total = some d) :
    ∀ c ∈ l, c.isDigit = true ∨ ∃ u ∈ durationUnits, c ∈ u.1 := by
  induction rounds generalizing l total with
  | zero =>
    cases l with
    | nil => simp
    | cons c l => cases h
  | succ rounds ih =>
    by_cases hl : l = []
    · simp [hl]
    rw [durationTerms_succ hl] at h
    obtain ⟨⟨n, tail⟩, hterm, hrest⟩ := Option.bind_eq_some_iff.mp h
    obtain ⟨digits, u, hu, rfl, -, hdigits⟩ := durationTerm_ok hterm
    intro c hc
    rcases mem_append.mp hc with hc | hc
    · exact .inl (hdigits c hc)
    rcases mem_append.mp hc with hc | hc
    · exact .inr ⟨u, hu, hc⟩
    · exact ih hrest c hc

theorem formatDuration_ne (hpos : 0 < d) (hwhole : d % 1000000 = 0) (hpos' : 0 < d')
    (hrest : d' % 1000000 ≠ 0) : formatDuration d ≠ formatDuration d' := by
  intro h
  obtain ⟨u, hu, n, -, htext⟩ := formatDuration_whole hpos hwhole
  obtain ⟨x, -, htext', c, hmark, hc⟩ := formatDuration_mark hpos' hrest
  have hunits : ∀ c ∈ ['.', 'n', 'µ'], ∀ u ∈ printedUnits, c.isDigit = false ∧ c ∉ u.2.toList := by
    simp [printedUnits]
  obtain ⟨hdigit, hunit⟩ := hunits c hmark u hu
  have hmem : c ∈ (formatDuration d).toList := by simp [h, htext', hc]
  rw [htext, toList_printed, mem_append] at hmem
  rcases hmem with hc | hc
  · cases (isDigit_toDigits hc).symm.trans hdigit
  · exact hunit hc

theorem isSpace_printedText {c : Char} {l : List (Nat × PrintUnit)} (hc : c ∈ printedText l) :
    isSpace c = false := by
  have hunits : ∀ u : PrintUnit, ∀ c ∈ '.' :: u.text, isSpace c = false := by
    intro u
    cases u <;> simp [PrintUnit.text, isSpace]
  have hdigit (h : c.isDigit = true) : isSpace c = false := by
    have h := isDigit_range h
    simp only [isSpace, Bool.or_eq_false_iff, Bool.and_eq_false_iff, decide_eq_false_iff_not]
    omega
  obtain ⟨g, -, hc⟩ := mem_flatMap.mp hc
  rcases mem_append.mp hc with hc | hc
  · rcases mem_append.mp hc with hc | hc
    · exact hdigit (isDigit_toDigits hc)
    split at hc
    · cases hc
    rcases mem_cons.mp hc with rfl | hc
    · decide
    · exact hdigit (fracDigits_digit _ _ (by simp) c hc)
  · exact hunits g.2 c (mem_cons_of_mem _ hc)

/-- Go's text of a part of a millisecond is refused. -/
theorem parsePromDuration_rest (hfloat : NoUnitFloats L) (hpos : 0 < d) (hrest : d % 1000000 ≠ 0) :
    parsePromDuration L (formatDuration d) = none := by
  obtain ⟨x, hx, htext, c, hmark, hc⟩ := formatDuration_mark hpos hrest
  have hplain : ∀ c ∈ (String.ofList (x ++ ['s'])).toList, isSpace c = false := by
    rw [String.toList_ofList, ← hx]
    exact fun c => isSpace_printedText
  have hnone := hfloat (String.ofList (x ++ ['s'])) 's' (by decide) (by simp)
  have hunits : ∀ c ∈ ['.', 'n', 'µ'], c.isDigit = false ∧ ∀ u ∈ durationUnits, c ∉ u.1 := by
    simp [durationUnits]
  obtain ⟨hdigit, hunit⟩ := hunits c hmark
  unfold parsePromDuration
  dsimp only
  rw [htext, trimSpace_of_plain hplain, if_neg (by simp), hnone, String.toList_ofList]
  by_contra hread
  obtain ⟨e, hread⟩ := Option.ne_none_iff_exists'.mp hread
  rcases durationTerms_char hread c (mem_append_left _ hc) with hc | ⟨u, hu, hc⟩
  · cases hc.symm.trans hdigit
  · exact hunit u hu hc

/-- A duration is read back from its text exactly if it is a whole number of milliseconds, and
two durations never have the same text. -/
theorem durations_are_read_back_iff_whole_milliseconds (hfloat : NoUnitFloats L) :
    (∀ d, 0 < d → d ≤ maxDuration →
      (parsePromDuration L (formatDuration d) = some d ↔ d % 1000000 = 0)) ∧
    ∀ d d', 0 < d → d ≤ maxDuration → 0 < d' → d' ≤ maxDuration →
      formatDuration d = formatDuration d' → d = d' := by
  have hback (d : Int) (hpos : 0 < d) (hmax : d ≤ maxDuration) (hwhole : d % 1000000 = 0) :=
    parsePromDuration_formatDuration hfloat hpos hwhole hmax
  refine ⟨fun d hpos hmax => ⟨fun hread => ?_, hback d hpos hmax⟩,
    fun d d' hpos hmax hpos' hmax' h => ?_⟩
  · by_contra hrest
    cases (parsePromDuration_rest hfloat hpos hrest).symm.trans hread
  by_cases hwhole : d % 1000000 = 0 <;> by_cases hwhole' : d' % 1000000 = 0
  · have hread := hback d hpos hmax hwhole
    rw [h, hback d' hpos' hmax' hwhole'] at hread
    exact (Option.some.inj hread).symm
  · exact absurd h (formatDuration_ne hpos hwhole hpos' hwhole')
  · exact absurd h.symm (formatDuration_ne hpos' hwhole' hpos hwhole)
  · rw [formatDuration_rest hpos hwhole, formatDuration_rest hpos' hwhole'] at h
    exact durationString_inj hpos hpos' h

theorem ninety_seconds_are_read_back :
    parsePromDuration mcptools.plainLib (formatDuration 90000000000) = some 90000000000 :=
  ((durations_are_read_back_iff_whole_milliseconds fun _ _ _ _ => rfl).1 _ (by decide)
    (by decide)).mpr (by decide)

theorem a_nanosecond_is_not_read_back : formatDuration 1 = "1ns" ∧
    parsePromDuration mcptools.plainLib (formatDuration 1) = none := by
  decide

example : durationString 5400500000000 = "1h30m0.5s" := by decide +kernel

end RoundTrips

end prom_fleet.render
