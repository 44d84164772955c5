-- The texts that the renderer has cleaned: what they cannot contain, and that cleaning them
-- once more changes nothing.
import PromFleet.Sanitize

namespace prom_fleet.render

open List

/-! ## Escapes -/

/-- The second text is the first one with a backslash before some of its characters. -/
inductive Escaped : List Char → List Char → Prop where
  | nil : Escaped [] []
  | keep {s t : List Char} (c : Char) (h : Escaped s t) : Escaped (c :: s) (c :: t)
  | mark {s t : List Char} {c : Char} (h : Escaped (c :: s) t) : Escaped (c :: s) ('\\' :: t)

variable {s t l a r : List Char} {c : Char}

namespace Escaped

theorem refl : ∀ s, Escaped s s
  | [] => .nil
  | c :: s => .keep c (refl s)

theorem append {s' t' : List Char} (h : Escaped s t) (h' : Escaped s' t') :
    Escaped (s ++ s') (t ++ t') := by
  induction h with
  | nil => exact h'
  | keep c _ ih => exact .keep c ih
  | mark _ ih => exact .mark ih

/-- A piece without a backslash was there before. -/
theorem of_begins (h : Escaped s t) (hl : l <+: t) (hmark : '\\' ∉ l) : l <+: s := by
  induction h generalizing l with
  | nil => exact hl
  | keep c _ ih =>
    rcases prefix_cons_iff.mp hl with rfl | ⟨l', rfl, hl'⟩
    · exact nil_prefix
    · exact prefix_cons_inj c |>.mpr (ih hl' fun hin => hmark (mem_cons_of_mem _ hin))
  | mark _ _ =>
    rcases prefix_cons_iff.mp hl with rfl | ⟨l', rfl, -⟩
    · exact nil_prefix
    · exact absurd mem_cons_self hmark

theorem of_piece (h : Escaped s t) (hmark : '\\' ∉ l) (hl : l <:+: t) : l <:+: s := by
  induction h with
  | nil => exact hl
  | keep c h ih =>
    rcases infix_cons_iff.mp hl with hl | hl
    · exact ((h.keep c).of_begins hl hmark).isInfix
    · exact (ih hl).trans (suffix_cons c _).isInfix
  | mark h ih =>
    rcases infix_cons_iff.mp hl with hl | hl
    · exact (h.mark.of_begins hl hmark).isInfix
    · exact ih hl

end Escaped

/-- A piece without a character lies on one side of it. -/
theorem piece_append_cons (hc : c ∉ l) (h : l <:+: a ++ c :: r) : l <:+: a ∨ l <:+: r := by
  rcases infix_append_iff.mp h with h | h | ⟨l₁, l₂, rfl, h₁, h₂⟩
  · exact .inl h
  · rcases infix_cons_iff.mp h with h | h
    · rcases prefix_cons_iff.mp h with rfl | ⟨l, rfl, -⟩
      · exact .inl nil_infix
      · simp at hc
    · exact .inr h
  · rcases prefix_cons_iff.mp h₂ with rfl | ⟨l, rfl, -⟩
    · simpa using .inl h₁.isInfix
    · simp at hc

/-! ## Fences -/

def tripleBacktick : List Char := [backtick, backtick, backtick]

variable (run : Nat)

theorem escaped_fence : Escaped (replicate run backtick) (fence run) := by
  unfold fence
  split
  · exact .refl _
  · rename_i h
    clear h
    induction run with
    | zero => exact .nil
    | succ run ih => exact .mark (.keep backtick ih)

theorem escaped_escapeFences (s : List Char) :
    Escaped (replicate run backtick ++ s) (escapeFences run s) := by
  fun_induction escapeFences run s with
  | case1 run => simpa using escaped_fence run
  | case2 run s ih => simpa [replicate_succ'] using ih
  | case3 run c s hc ih => exact (escaped_fence run).append (.keep c ih)

theorem no_fence : ¬tripleBacktick <:+: fence run := by
  unfold fence
  split
  · intro h
    have := h.length_le
    simp [tripleBacktick] at this
    omega
  · rename_i h
    clear h
    -- each backtick but the first one comes after a backslash
    suffices hmarked : ∀ n, ¬tripleBacktick <:+:
        backtick :: (replicate n ['\\', backtick]).flatten from
      fun h => hmarked run (h.trans (suffix_cons _ _).isInfix)
    intro n
    induction n with
    | zero => decide
    | succ n ih =>
      intro h
      exact (piece_append_cons (a := [backtick]) (by decide) h).elim (by decide) ih

theorem no_fence_escapeFences (s : List Char) : ¬tripleBacktick <:+: escapeFences run s := by
  fun_induction escapeFences run s with
  | case1 run => exact no_fence run
  | case2 run s ih => exact ih
  | case3 run c s hc ih =>
    intro h
    exact (piece_append_cons (by simp [tripleBacktick, hc]) h).elim (no_fence run) ih

theorem escapeFences_of_no_fence (s : List Char)
    (h : ¬tripleBacktick <:+: replicate run backtick ++ s) :
    escapeFences run s = replicate run backtick ++ s := by
  have hfence (run : Nat) (s : List Char) (h : ¬tripleBacktick <:+: replicate run backtick ++ s) :
      fence run = replicate run backtick := by
    refine if_pos (Nat.lt_of_not_le fun hrun => h ?_)
    have : replicate 3 backtick <+: replicate run backtick := by
      rw [prefix_iff_eq_take]
      simp [hrun]
    exact (this.trans (prefix_append _ s)).isInfix
  fun_induction escapeFences run s with
  | case1 run => simpa using hfence run [] h
  | case2 run s ih => simpa [replicate_succ'] using ih (by simpa [replicate_succ'] using h)
  | case3 run c s hc ih =>
    rw [hfence run _ h, ih fun hin => h ?_]
    · rfl
    · exact hin.trans ((suffix_cons c s).trans (suffix_append _ _)).isInfix

/-! ## Pairs -/

theorem escaped_splitPair (a b : Char) (s : List Char) : Escaped s (splitPair a b s) := by
  fun_induction splitPair a b s with
  | case1 x y rest hxy ih =>
    obtain ⟨rfl, rfl⟩ := hxy
    exact .keep x (.mark (.keep y ih))
  | case2 x y rest hxy ih => exact .keep x ih
  | case3 rest => exact .refl rest

theorem head?_splitPair (a b : Char) (s : List Char) : (splitPair a b s).head? = s.head? := by
  fun_cases splitPair a b s <;> simp_all

theorem no_pair_splitPair {a b : Char} (hab : a ≠ b) (ha : a ≠ '\\') (hb : b ≠ '\\')
    (s : List Char) : ¬[a, b] <:+: splitPair a b s := by
  fun_induction splitPair a b s with
  | case1 x y rest hxy ih =>
    simp [infix_cons_iff, prefix_cons_iff, ih, hab, ha, hb]
  | case2 x y rest hxy ih =>
    have hhead := head?_splitPair a b (y :: rest)
    intro h
    rcases infix_cons_iff.mp h with h | h
    · obtain ⟨t, ht⟩ := h
      simp at ht
      simp [← ht.2] at hhead
      exact hxy ⟨ht.1.symm, hhead.symm⟩
    · exact ih h
  | case3 rest hshort =>
    match rest, hshort with
    | [], _ => simp
    | [x], _ => simp [infix_cons_iff, prefix_cons_iff]
    | x :: y :: rest, h => exact absurd rfl (h x y rest)

theorem splitPair_of_no_pair {a b : Char} (h : ¬[a, b] <:+: s) : splitPair a b s = s := by
  fun_induction splitPair a b s with
  | case1 x y rest hxy ih =>
    obtain ⟨rfl, rfl⟩ := hxy
    exact absurd (prefix_append [x, y] rest).isInfix h
  | case2 x y rest hxy ih => rw [ih fun hin => h (hin.trans (suffix_cons x _).isInfix)]
  | case3 rest => rfl

/-! ## Blanks -/

/-- A text with single blanks between its other characters. If nothing is written before it,
it does not begin with a blank. -/
inductive Folded : Bool → List Char → Prop where
  | nil (wrote : Bool) : Folded wrote []
  | char {wrote : Bool} {c : Char} {s : List Char} (hspace : isSpace c = false)
      (hallowed : forbidden c = false) (h : Folded true s) : Folded wrote (c :: s)
  | blank {c : Char} {s : List Char} (h : Folded false (c :: s)) : Folded true (' ' :: c :: s)

namespace Folded

variable {wrote pendingSpace : Bool}

theorem of_foldSpaces (h : pendingSpace = true → wrote = true) (s : List Char) :
    Folded wrote (foldSpaces wrote pendingSpace s) := by
  fun_induction foldSpaces wrote pendingSpace s with
  | case1 => exact .nil _
  | case2 _ _ _ _ _ ih => exact ih (by simpa [or_imp] using h)
  | case3 _ _ _ _ _ _ ih => exact ih h
  | case4 _ _ _ hc hallowed ih =>
    obtain rfl := h rfl
    exact .blank (.char (by simpa using hc) (by simpa using hallowed) (ih (by simp)))
  | case5 _ _ _ _ hc hallowed _ ih =>
    exact .char (by simpa using hc) (by simpa using hallowed) (ih (by simp))

theorem foldSpaces_eq (h : Folded wrote s) : foldSpaces wrote false s = s := by
  have hblank : isSpace ' ' = true := by decide
  induction h with
  | nil => rfl
  | char hspace hallowed _ ih => simp [foldSpaces, hspace, hallowed, ih]
  | blank h ih =>
    cases h with
    | char hspace hallowed h => simp_all [foldSpaces]

theorem of_false (h : Folded false s) : Folded wrote s := by
  cases h with
  | nil => exact .nil _
  | char hspace hallowed h => exact .char hspace hallowed h

theorem of_all (h : s.all (fun c => !isSpace c && !forbidden c) = true) : Folded wrote s := by
  induction s generalizing wrote with
  | nil => exact .nil _
  | cons c s ih =>
    simp only [all_cons, Bool.and_eq_true, Bool.not_eq_true'] at h
    exact .char h.1.1 h.1.2 (ih h.2)

theorem to_true (h : Folded wrote s) : Folded true s := by
  cases wrote with
  | false => exact h.of_false
  | true => exact h

theorem escaped (hst : Escaped s t) (h : Folded wrote s) : Folded wrote t := by
  induction hst generalizing wrote with
  | nil => exact h
  | keep c hst ih =>
    cases h with
    | char hspace hallowed h => exact .char hspace hallowed (ih h)
    | blank h =>
      cases hst with
      | keep => exact .blank (ih h)
      | mark => exact .blank (ih h)
  | mark _ ih => exact .char (by decide) (by decide) (ih h.to_true)

theorem clip {p : List Char} (hm : Folded false (c :: l)) (h : Folded wrote s) (hp : p <+: s) :
    Folded wrote (p ++ c :: l) := by
  induction h generalizing p with
  | nil => simpa [prefix_nil.mp hp] using hm.of_false
  | char hspace hallowed _ ih =>
    rcases prefix_cons_iff.mp hp with rfl | ⟨p', rfl, hp'⟩
    · exact hm.of_false
    · exact .char hspace hallowed (ih hp')
  | blank _ ih =>
    rcases prefix_cons_iff.mp hp with rfl | ⟨p', rfl, hp'⟩
    · exact hm.of_false
    · cases p' with
      | nil => exact .blank hm
      | cons d p' => exact .blank (ih hp')

end Folded

/-! ## Clean texts -/

/-- The fixed points of `Sanitize`. -/
structure Clean (s : List Char) : Prop where
  folded : Folded false s
  fence : ¬tripleBacktick <:+: s
  opening : ¬['<', '|'] <:+: s
  closing : ¬['|', '>'] <:+: s

theorem clean_nil : Clean [] :=
  ⟨.nil _, by decide, by decide, by decide⟩

theorem clean_sanitize (s : List Char) : Clean (sanitize s) := by
  have h₁ := escaped_escapeFences 0 (foldSpaces false false s)
  have h₂ := escaped_splitPair '<' '|' (escapeFences 0 (foldSpaces false false s))
  have h₃ := escaped_splitPair '|' '>' (splitPair '<' '|'
    (escapeFences 0 (foldSpaces false false s)))
  exact
    { folded := (((Folded.of_foldSpaces (by simp) s).escaped h₁).escaped h₂).escaped h₃
      fence := fun h =>
        no_fence_escapeFences _ _ (h₂.of_piece (by decide) (h₃.of_piece (by decide) h))
      opening := fun h =>
        no_pair_splitPair (by decide) (by decide) (by decide) _ (h₃.of_piece (by decide) h)
      closing := no_pair_splitPair (by decide) (by decide) (by decide) _ }

theorem Clean.sanitize_eq (h : Clean s) : sanitize s = s := by
  have hfence := escapeFences_of_no_fence 0 s h.fence
  rw [sanitize, h.folded.foldSpaces_eq, hfence]
  simp only [replicate_zero, nil_append]
  rw [splitPair_of_no_pair h.opening, splitPair_of_no_pair h.closing]

theorem Clean.clip {p : List Char} (h : Clean s) (hp : p <+: s) :
    Clean (p ++ clipMarker.toList) := by
  have hpiece (l : List Char) (hne : l ≠ []) (hl : l.all (· ∉ clipMarker.toList) = true)
      (hnot : ¬l <:+: s) : ¬l <:+: p ++ clipMarker.toList := by
    intro hin
    have hmark (c : Char) (hc : c ∈ l) := of_decide_eq_true (all_eq_true.mp hl c hc)
    rcases infix_append_iff.mp hin with hin | hin | ⟨l₁, l₂, rfl, h₁, h₂⟩
    · exact hnot (hin.trans hp.isInfix)
    · obtain ⟨c, hc⟩ := exists_mem_of_ne_nil _ hne
      exact hmark c hc (hin.subset hc)
    · cases l₂ with
      | nil => exact hnot (by simpa using h₁.isInfix.trans hp.isInfix)
      | cons c l₂ => exact hmark c (by simp) (h₂.subset (by simp))
  have hmark : Folded false clipMarker.toList := by
    have hchars : clipMarker.toList.all (fun c => !isSpace c && !forbidden c) = true := by decide
    exact Folded.of_all hchars
  exact
    { folded := hmark.clip h.folded hp
      fence := hpiece _ (by decide) (by decide) h.fence
      opening := hpiece _ (by decide) (by decide) h.opening
      closing := hpiece _ (by decide) (by decide) h.closing }

/-! ## Cuts -/

theorem sanitize_sanitize (s : List Char) : sanitize (sanitize s) = sanitize s :=
  (clean_sanitize s).sanitize_eq

theorem takeBytes_begins (room : Nat) (s : List Char) : takeBytes room s <+: s := by
  fun_induction takeBytes room s with
  | case1 => exact nil_prefix
  | case2 room c s hc ih => exact prefix_cons_inj c |>.mpr ih
  | case3 => exact nil_prefix

theorem clean_of_cut {out p : List Char} (hp : p <+: sanitize s)
    (hout : out = [] ∨ out = sanitize s ∨ out = p ++ clipMarker.toList) : Clean out := by
  rcases hout with rfl | rfl | rfl
  · exact clean_nil
  · exact clean_sanitize s
  · exact (clean_sanitize s).clip hp

variable (s : String)

variable (max : Nat)

theorem clean_clipRunes : Clean (clipRunes s max).toList := by
  refine clean_of_cut (s := s.toList) ( take_prefix max _) ?_
  unfold clipRunes
  dsimp only
  split_ifs <;> simp

theorem clean_clipBytes : Clean (clipBytes s max).toList := by
  refine clean_of_cut (takeBytes_begins max (sanitize s.toList)) ?_
  unfold clipBytes
  dsimp only
  split_ifs <;> simp

theorem clipRunes_clipRunes : clipRunes (clipRunes s max) max = clipRunes s max := by
  have hclean := (clean_clipRunes s max).sanitize_eq
  have hmark : 0 < clipMarker.toList.length := by decide
  by_cases hmax : max = 0
  · simp [clipRunes, hmax]
  by_cases hfit : (sanitize s.toList).length ≤ max
  · simp [clipRunes, hmax, hfit, sanitize_sanitize]
  · have hlen : ((sanitize s.toList).take max).length = max := by
      rw [length_take]
      omega
    simp only [clipRunes, hmax, hfit, if_false, String.toList_append, String.toList_ofList]
      at hclean ⊢
    simp only [hclean, length_append, hlen, take_left' hlen]
    exact if_neg (by omega)

def bytes (s : List Char) : Nat := (String.ofList s).utf8ByteSize

@[simp] theorem bytes_nil : bytes [] = 0 := rfl

@[simp] theorem bytes_cons (c : Char) (s : List Char) : bytes (c :: s) = c.utf8Size + bytes s := by
  rw [bytes, ← singleton_append, String.ofList_append, String.utf8ByteSize_append, bytes]
  simp

theorem bytes_append (a b : List Char) : bytes (a ++ b) = bytes a + bytes b := by
  rw [bytes, String.ofList_append, String.utf8ByteSize_append, bytes, bytes]

variable {room : Nat}

/-- A text that is too long has a rune across the limit. -/
theorem exists_across (s : List Char) (h : room < bytes s) :
    ∃ a c r, s = a ++ c :: r ∧ bytes a ≤ room ∧ room < bytes a + c.utf8Size := by
  induction s generalizing room with
  | nil => simp at h
  | cons d s ih =>
    by_cases hd : d.utf8Size ≤ room
    · rw [bytes_cons] at h
      have hrest : room - d.utf8Size < bytes s := by omega
      obtain ⟨a, c, r, rfl, hfits, hcut⟩ := ih hrest
      exact ⟨d :: a, c, r, rfl, by simp; omega, by simp; omega⟩
    · exact ⟨[], d, s, rfl, by simp, by simpa using hd⟩

theorem takeBytes_across {c : Char} (a r : List Char) (hfits : bytes a ≤ room)
    (hcut : room < bytes a + c.utf8Size) : takeBytes room (a ++ c :: r) = a := by
  induction a generalizing room with
  | nil => simpa [takeBytes] using hcut
  | cons d a ih =>
    rw [bytes_cons] at hfits hcut
    rw [cons_append, takeBytes, if_pos (by omega), ih (by omega) (by omega)]

/-- A rune of four bytes begins three bytes before the limit. -/
def LeavesThree (s : List Char) (room : Nat) : Prop :=
  ∃ a c r, s = a ++ c :: r ∧ c.utf8Size = 4 ∧ bytes a + 3 = room

theorem leavesThree_iff {a : List Char} {c : Char} {r : List Char}
    (hfits : bytes a ≤ room) (hcut : room < bytes a + c.utf8Size) :
    LeavesThree (a ++ c :: r) room ↔ bytes a + 3 = room := by
  constructor
  · rintro ⟨a', c', r', heq, hfour, hthree⟩
    rw [← takeBytes_across a r hfits hcut, heq, takeBytes_across a' r' (by omega) (by omega),
      hthree]
  · exact fun hthree => ⟨a, c, r, rfl, by have := Char.utf8Size_le_four c; omega, hthree⟩

/-- A cut that leaves three bytes free is made again behind the first rune of its mark. -/
theorem clipBytes_again_iff :
    clipBytes (clipBytes s max) max = clipBytes s max ↔ ¬LeavesThree (sanitize s.toList) max := by
  have hclean := (clean_clipBytes s max).sanitize_eq
  by_cases hmax : max = 0
  · simp [clipBytes, hmax, LeavesThree]
  by_cases hfit : bytes (sanitize s.toList) ≤ max
  · have hnone : ¬LeavesThree (sanitize s.toList) max := by
      rintro ⟨a, c, r, heq, hfour, hthree⟩
      rw [heq, bytes_append, bytes_cons] at hfit
      omega
    unfold bytes at hfit
    simp [clipBytes, hmax, hfit, sanitize_sanitize, hnone]
  obtain ⟨a, c, r, heq, hfits, hcut⟩ := exists_across _ (Nat.lt_of_not_le hfit)
  have hfour := Char.utf8Size_le_four c
  have hthree : '…'.utf8Size = 3 := by decide
  have hlong : ¬bytes (a ++ clipMarker.toList) ≤ max := by
    rw [bytes_append, show bytes clipMarker.toList = 12 by decide]
    omega
  have hfirst : clipBytes s max = String.ofList a ++ clipMarker := by
    unfold bytes at hfit
    simp only [clipBytes, hmax, hfit, if_false]
    rw [heq, takeBytes_across a r hfits hcut]
  have hsecond : clipBytes (clipBytes s max) max =
      String.ofList (takeBytes max (a ++ clipMarker.toList)) ++ clipMarker := by
    rw [hfirst] at hclean ⊢
    unfold bytes at hlong
    simp only [String.toList_append, String.toList_ofList] at hclean
    simp only [clipBytes, hmax, String.toList_append, String.toList_ofList, hclean, hlong, if_false]
  rw [hsecond, hfirst, heq, leavesThree_iff hfits hcut, String.append_left_inj,
    String.ofList_inj]
  by_cases hfree : bytes a + 3 = max
  · -- the ellipsis of the mark is kept as a part of the text
    have hkept : takeBytes max (a ++ clipMarker.toList) = a ++ ['…'] := by
      rw [show a ++ clipMarker.toList = (a ++ ['…']) ++ '[' :: "clipped]".toList by simp; rfl]
      refine takeBytes_across _ _ ?_ ?_ <;> simp [bytes_append, Char.utf8Size] <;> omega
    simp [hkept, hfree]
  · rw [show clipMarker.toList = '…' :: "[clipped]".toList from rfl,
      takeBytes_across a _ hfits (by omega)]
    simp [hfree]

/-! ## Byte strings -/

/-- The runes of a `range` loop over a string: a byte that begins no rune gives
`utf8.RuneError`. -/
def rangeRunes : Nat → List UInt8 → List Char
  | n + 1, b :: s =>
    match (b :: s).toByteArray.utf8DecodeChar? 0 with
    | some c => c :: rangeRunes n ((b :: s).drop c.utf8Size)
    | none => Char.ofNat 0xfffd :: rangeRunes n s
  | _, _ => []

/-- A function on texts, for byte strings. -/
def onBytes (f : String → String) (s : List UInt8) : List UInt8 :=
  (f (String.ofList (rangeRunes s.length s))).toList.flatMap String.utf8EncodeChar

theorem rangeRunes_encoded {n : Nat} (s : List Char)
    (hn : (s.flatMap String.utf8EncodeChar).length ≤ n) :
    rangeRunes n (s.flatMap String.utf8EncodeChar) = s := by
  induction s generalizing n with
  | nil => cases n <;> rfl
  | cons c s ih =>
    have hsize := String.length_utf8EncodeChar c
    have hpos := Char.utf8Size_pos c
    have hdecode : (c :: s).utf8Encode.utf8DecodeChar? 0 = some c := utf8DecodeChar?_utf8Encode_cons
    unfold utf8Encode at hdecode
    obtain ⟨b, rest, hb⟩ := exists_cons_of_length_pos (hsize ▸ hpos)
    obtain ⟨n, rfl⟩ : ∃ m, n = m + 1 := ⟨n - 1, by simp [hsize] at hn; omega⟩
    have hdrop : ((c :: s).flatMap String.utf8EncodeChar).drop c.utf8Size =
        s.flatMap String.utf8EncodeChar := by
      rw [flatMap_cons, drop_left' hsize]
    rw [flatMap_cons, length_append] at hn
    rw [flatMap_cons, hb, cons_append] at hdecode hdrop ⊢
    simp only [rangeRunes, hdecode, hdrop]
    rw [ih (by omega)]

theorem onBytes_again_iff {f : String → String} {s : List UInt8} :
    onBytes f (onBytes f s) = onBytes f s ↔ f (f (String.ofList (rangeRunes s.length s))) =
      f (String.ofList (rangeRunes s.length s)) := by
  have hinj {a b : String}
      (h : a.toList.flatMap String.utf8EncodeChar = b.toList.flatMap String.utf8EncodeChar) :
      a = b := by
    rw [← String.toList_inj, ← rangeRunes_encoded a.toList le_rfl, h, rangeRunes_encoded _ le_rfl]
  unfold onBytes
  rw [rangeRunes_encoded _ le_rfl, String.ofList_toList]
  exact ⟨hinj, fun h => by rw [h]⟩

/-- `Sanitize` of a text. -/
def sanitizeText (s : String) : String := String.ofList (sanitize s.toList)

/-- Cleaning a byte string a second time changes nothing. Neither does cutting it again, unless a
rune of four bytes begins three bytes before the limit. -/
theorem cleaned_texts_stay_iff_no_cut_leaves_three_bytes (s : List UInt8) (max : Int) :
    (onBytes sanitizeText (onBytes sanitizeText s) = onBytes sanitizeText s ∧
      onBytes (clipRunes · max.toNat) (onBytes (clipRunes · max.toNat) s) =
        onBytes (clipRunes · max.toNat) s ∧
      onBytes (clipBytes · max.toNat) (onBytes (clipBytes · max.toNat) s) =
        onBytes (clipBytes · max.toNat) s) ↔
      ¬LeavesThree (sanitize (rangeRunes s.length s)) max.toNat := by
  simp only [onBytes_again_iff, clipBytes_again_iff, clipRunes_clipRunes, String.toList_ofList]
  simp [sanitizeText, sanitize_sanitize]

/-- Nothing is kept of a rune of four bytes, and the mark in its place is cut behind its own
first rune. -/
theorem a_cut_mark_is_cut_again :
    onBytes (clipBytes · 3) [240, 159, 152, 128] ≠
      onBytes (clipBytes · 3) (onBytes (clipBytes · 3) [240, 159, 152, 128]) := by
  decide +kernel

end prom_fleet.render
