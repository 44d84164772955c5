-- The laws of the allow-list: a path that is read back is one that was built, a path names
-- one route and one label name, and what a form check accepts does not depend on the order
-- in which it looks at the form.
import PromFleet.Fallible
import PromFleet.PromAPI

namespace prom_fleet.promapi

open map_range List

variable {L : Lib}

/-! ## Routes -/

theorem nodup_endpoints : (routes.map Route.endpoint).Nodup := by
  decide +kernel

theorem nodup_templates : (routes.map Route.pathTemplate).Nodup := by
  decide +kernel

theorem endpoints_differ : ∀ r ∈ routes, ∀ r' ∈ routes, r.endpoint = r'.endpoint → r = r' :=
  fun _ hr _ hr' h => inj_on_of_nodup_map nodup_endpoints hr hr' h

theorem templates_differ : ∀ r ∈ routes, ∀ r' ∈ routes, r.pathTemplate = r'.pathTemplate → r = r' :=
  fun _ hr _ hr' h => inj_on_of_nodup_map nodup_templates hr hr' h

variable {e : Endpoint} {r : Route}

theorem get_eq_ok : get L e = .ok r ↔ r ∈ routes ∧ r.endpoint = e := by
  unfold get
  constructor
  · intro h
    split at h
    · cases h
    rename_i r' hfind
    cases h
    exact (find_key_eq_some _ nodup_endpoints).mp hfind
  · intro h
    rw [(find_key_eq_some _ nodup_endpoints).mpr h]

/-- The one route whose path has a placeholder. -/
theorem of_hasPathParam : ∀ r ∈ routes, r.hasPathParam = true →
    r.endpoint = .labelValues ∧ r.around = ("/api/v1/label/".toList, "/values".toList) := by
  decide +kernel

/-- No other path begins like the path of that route. -/
theorem of_no_hasPathParam : ∀ r ∈ routes, r.hasPathParam = false →
    irregular r.pathTemplate = false ∧ ¬"/api/v1/label/".toList <+: r.pathTemplate.toList := by
  decide +kernel

/-! ## Label names -/

variable {name : String}

theorem validateLabelName_eq_ok : validateLabelName L name = .ok () ↔
      name.utf8ByteSize ≤ maxLabelNameBytes ∧ labelNameRE name = true := by
  unfold validateLabelName
  split
  · simp; omega
  split
  · simp_all
  · simp_all

def labelChar (c : Char) : Bool := c.isAlpha || c = '_' || c.isDigit

theorem labelNameRE_chars (h : labelNameRE name = true) :
    name ≠ "" ∧ ∀ c ∈ name.toList, labelChar c = true := by
  unfold labelNameRE nameRE at h
  split at h
  · cases h
  rename_i c rest hname
  rw [Bool.and_eq_true, all_eq_true] at h
  constructor
  · rintro rfl
    cases hname
  intro d hd
  rw [hname] at hd
  rcases mem_cons.mp hd with rfl | hd
  · exact Bool.or_eq_true_iff.mpr (Or.inl h.1)
  · exact h.2 d hd

/-- No separator of a path is a character of a label name. -/
theorem labelChar_plain {c : Char} (h : labelChar c = true) :
    c ≠ '/' ∧ c ≠ '.' ∧ c ≠ '\\' ∧ c ≠ '\x00' ∧ c ≠ '%' := by
  refine ⟨?_, ?_, ?_, ?_, ?_⟩ <;> rintro rfl <;> revert h <;> decide

/-! ## Paths -/

variable {labelName path : String}

/-- What `BuildPath` accepts: an endpoint of the table, and a label name where the path has
a place for one. -/
theorem buildPath_eq_ok : buildPath L e labelName = .ok path ↔ ∃ r ∈ routes, r.endpoint = e ∧
      ((r.hasPathParam = false ∧ labelName = "" ∧ path = r.pathTemplate) ∨
        (r.hasPathParam = true ∧ validateLabelName L labelName = .ok () ∧
          path = String.ofList (r.around.1 ++ labelName.toList ++ r.around.2))) := by
  unfold buildPath
  simp only [bind_eq_ok, get_eq_ok, and_assoc]
  refine exists_congr fun r => and_congr_right fun _ => and_congr_right fun _ => ?_
  cases r.hasPathParam with
  | false => by_cases hname : labelName = "" <;> simp [hname, eq_comm]
  | true =>
    simp [bind_eq_ok, eq_comm (a := path)]
    exact fun _ => ⟨fun ⟨_, h⟩ => h, fun h => ⟨_, h⟩⟩

theorem buildPath_label (hr : r ∈ routes) (hparam : r.hasPathParam = true)
    (h : path = String.ofList (r.around.1 ++ labelName.toList ++ r.around.2)) :
    path.toList = "/api/v1/label/".toList ++ labelName.toList ++ "/values".toList := by
  rw [h, String.toList_ofList, (of_hasPathParam r hr hparam).2]

theorem buildPath_inj {e' : Endpoint} {labelName' : String} (h : buildPath L e labelName = .ok path)
    (h' : buildPath L e' labelName' = .ok path) : e = e' ∧ labelName = labelName' := by
  obtain ⟨r, hr, rfl, hcase⟩ := buildPath_eq_ok.mp h
  obtain ⟨r', hr', rfl, hcase'⟩ := buildPath_eq_ok.mp h'
  rcases hcase with ⟨hparam, rfl, hpath⟩ | ⟨hparam, -, hpath⟩
  · rcases hcase' with ⟨hparam', rfl, hpath'⟩ | ⟨hparam', -, hpath'⟩
    · obtain rfl := templates_differ r hr r' hr' (hpath.symm.trans hpath')
      exact ⟨rfl, rfl⟩
    · have hparts := buildPath_label hr' hparam' hpath'
      refine absurd ?_ (of_no_hasPathParam r hr hparam).2
      rw [← hpath, hparts, append_assoc]
      exact prefix_append _ _
  · have hparts := buildPath_label hr hparam hpath
    rcases hcase' with ⟨hparam', rfl, hpath'⟩ | ⟨hparam', -, hpath'⟩
    · refine absurd ?_ (of_no_hasPathParam r' hr' hparam').2
      rw [← hpath', hparts, append_assoc]
      exact prefix_append _ _
    · have hparts' := buildPath_label hr' hparam' hpath'
      rw [hparts', append_cancel_right_eq, append_cancel_left_eq] at hparts
      refine ⟨?_, String.toList_inj.mp hparts.symm⟩
      rw [(of_hasPathParam r hr hparam).1, (of_hasPathParam r' hr' hparam').1]

theorem pair_infix_append {x y : Char} {a b : List Char} (h : [x, y] <:+: a ++ b) :
    [x, y] <:+: a ∨ [x, y] <:+: b ∨ ([x] <:+ a ∧ [y] <+: b) := by
  rcases infix_append_iff.mp h with h | h | ⟨l₁, l₂, hl, h₁, h₂⟩
  · exact .inl h
  · exact .inr (Or.inl h)
  match l₁, l₂, hl with
  | [], _, rfl => exact .inr (Or.inl h₂.isInfix)
  | [_], [_], rfl => exact .inr (Or.inr ⟨h₁, h₂⟩)
  | [_, _], [], rfl => exact .inl h₁.isInfix

/-- A built path needs no escape and goes up nowhere. -/
theorem irregular_buildPath (h : buildPath L e labelName = .ok path) : irregular path = false := by
  obtain ⟨r, hr, rfl, hcase⟩ := buildPath_eq_ok.mp h
  rcases hcase with ⟨hparam, -, rfl⟩ | ⟨hparam, hvalid, hpath⟩
  · exact (of_no_hasPathParam r hr hparam).1
  obtain ⟨hne, hchars⟩ := labelNameRE_chars (validateLabelName_eq_ok.mp hvalid).2
  have hparts := buildPath_label hr hparam hpath
  have hmid : labelName.toList ≠ [] := fun hnil => hne (String.toList_inj.mp hnil)
  have haround : ("/api/v1/label/".toList ++ "/values".toList).all (fun c =>
      decide (c ≠ '.' ∧ c ≠ '\\' ∧ c ≠ '\x00' ∧ c ≠ '%')) = true := by decide +kernel
  rw [all_append, Bool.and_eq_true, all_eq_true, all_eq_true] at haround
  have hall : ∀ c ∈ path.toList, c ≠ '.' ∧ c ≠ '\\' ∧ c ≠ '\x00' ∧ c ≠ '%' := by
    intro c hc
    rw [hparts, mem_append, mem_append] at hc
    rcases hc with (hc | hc) | hc
    · exact of_decide_eq_true (haround.1 c hc)
    · exact (labelChar_plain (hchars c hc)).2
    · exact of_decide_eq_true (haround.2 c hc)
  have hdots : ¬['.', '.'] <:+: path.toList := fun hin =>
    (hall '.' (hin.subset (by decide))).1 rfl
  have hslashes : ¬['/', '/'] <:+: path.toList := by
    intro hin
    have hplain : '/' ∉ labelName.toList := fun hc => (labelChar_plain (hchars _ hc)).1 rfl
    rw [hparts] at hin
    rcases pair_infix_append hin with hin | hin | ⟨hlast, -⟩
    · rcases pair_infix_append hin with hin | hin | ⟨-, hfirst⟩
      · exact absurd hin (by decide)
      · exact hplain (hin.subset (by decide))
      · exact hplain (hfirst.subset (by decide))
    · exact absurd hin (by decide)
    · have hshort : ['/'].length ≤ labelName.toList.length := length_pos_iff.mpr hmid
      have hin := suffix_of_suffix_length_le hlast (suffix_append _ _) hshort
      exact hplain (hin.subset (by decide))
  have hhead : path.toList.head? = some '/' := by
    rw [hparts]
    rfl
  have hnonempty : path ≠ "" := by
    rintro rfl
    cases hhead
  have hany : path.toList.any (fun c => c = '\\' || c = '\x00' || c = '%') = false := by
    rw [any_eq_false]
    intro c hc
    simpa [not_or, and_assoc] using (hall c hc).2
  simp [irregular, hnonempty, hhead, hdots, hslashes, hany]

/-- A text between two others, if the two leave room for it. -/
theorem between {front back s : List Char} (hfront : front <+: s) (hback : back <:+ s)
    (hroom : (String.ofList front).utf8ByteSize + (String.ofList back).utf8ByteSize <
      (String.ofList s).utf8ByteSize) : ∃ mid, s = front ++ mid ++ back := by
  obtain ⟨rest, rfl⟩ := hfront
  have hrest : rest <:+ front ++ rest := suffix_append _ _
  rcases le_total back.length rest.length with hle | hle
  · obtain ⟨mid, rfl⟩ := suffix_of_suffix_length_le hback hrest hle
    exact ⟨mid, (append_assoc _ _ _).symm⟩
  obtain ⟨more, rfl⟩ := suffix_of_suffix_length_le hrest hback hle
  rw [String.ofList_append, String.ofList_append, String.utf8ByteSize_append,
    String.utf8ByteSize_append] at hroom
  omega

variable {method : String}

/-- A round of the loop finds exactly the paths that its route builds. -/
theorem matchRoute_eq_some {r' : Route} (hr : r ∈ routes) :
    matchRoute L method path r = some (r', labelName) ↔
      r' = r ∧ equalFold r.method method = true ∧ buildPath L r.endpoint labelName = .ok path := by
  have hbuild : buildPath L r.endpoint labelName = .ok path ↔
      (r.hasPathParam = false ∧ labelName = "" ∧ path = r.pathTemplate) ∨
        (r.hasPathParam = true ∧ validateLabelName L labelName = .ok () ∧
          path = String.ofList (r.around.1 ++ labelName.toList ++ r.around.2)) := by
    rw [buildPath_eq_ok]
    constructor
    · rintro ⟨r₁, hr₁, hsame, hcase⟩
      rwa [endpoints_differ r₁ hr₁ r hr hsame] at hcase
    · exact fun hcase => ⟨r, hr, rfl, hcase⟩
  rw [hbuild]
  unfold matchRoute
  dsimp only
  cases hfold : equalFold r.method method with
  | false => simp
  | true =>
    cases hparam : r.hasPathParam with
    | false =>
      simp only [Bool.not_true, Bool.false_eq_true, if_false, Bool.not_false, if_true]
      split
      · rename_i htemplate
        simp [htemplate, eq_comm]
      · rename_i htemplate
        simp [Ne.symm htemplate]
    | true =>
      simp only [Bool.not_true, Bool.false_eq_true, Bool.true_eq_false, if_false, false_and,
        false_or, true_and]
      generalize r.around = around
      obtain ⟨front, back⟩ := around
      have hmid : ∀ mid, path.toList = front ++ mid ++ back → (path.toList.drop front.length).take
          (path.toList.length - front.length - back.length) = mid := by
        intro mid hs
        have hlen : (front ++ mid ++ back).length - front.length - back.length = mid.length := by
          simp only [length_append]
          omega
        rw [hs, hlen, append_assoc, drop_left, take_left]
      dsimp only
      constructor
      · intro h
        split at h
        · cases h
        rename_i hguard
        simp only [Bool.or_eq_true, decide_eq_true_eq, Bool.not_eq_true', not_or, not_le,
          Bool.not_eq_false, isPrefixOf_iff_prefix, isSuffixOf_iff_suffix] at hguard
        obtain ⟨⟨hroom, hfront⟩, hback⟩ := hguard
        rw [← String.ofList_toList (s := path)] at hroom
        obtain ⟨mid, hs⟩ := between hfront hback hroom
        rw [hmid mid hs] at h
        split at h
        · cases h
        rename_i hvalid
        cases h
        refine ⟨rfl, hvalid, ?_⟩
        rw [String.toList_ofList, ← hs, String.ofList_toList]
      · rintro ⟨rfl, hvalid, hpath⟩
        have hs : path.toList = front ++ labelName.toList ++ back := by
          rw [hpath, String.toList_ofList]
        have hne := (labelNameRE_chars (validateLabelName_eq_ok.mp hvalid).2).1
        have hpos : 0 < labelName.utf8ByteSize :=
          Nat.pos_of_ne_zero fun hzero => hne (String.utf8ByteSize_eq_zero_iff.mp hzero)
        have hroom : ¬path.utf8ByteSize ≤
            (String.ofList front).utf8ByteSize + (String.ofList back).utf8ByteSize := by
          rw [hpath, String.ofList_append, String.ofList_append, String.utf8ByteSize_append,
            String.utf8ByteSize_append, String.ofList_toList]
          omega
        have hfront : front <+: path.toList := by
          rw [hs, append_assoc]
          exact prefix_append _ _
        have hback : back <:+ path.toList := by
          rw [hs]
          exact suffix_append _ _
        rw [if_neg (by simp [hroom, hfront, hback]), hmid _ hs, String.ofList_toList, hvalid]

/-- The loop finds exactly the built paths, in any order of the routes. -/
theorem lookup_eq_some {order : List Route} (horder : order.Perm routes) :
    lookup L order method path = some (r, labelName) ↔
      r ∈ routes ∧ equalFold r.method method = true ∧
        buildPath L r.endpoint labelName = .ok path := by
  unfold lookup
  constructor
  · intro h
    split at h
    · cases h
    obtain ⟨r', hr', hmatch⟩ := exists_of_findSome?_eq_some h
    have hr'' := horder.mem_iff.mp hr'
    obtain ⟨rfl, hfold, hbuild⟩ := (matchRoute_eq_some hr'').mp hmatch
    exact ⟨hr'', hfold, hbuild⟩
  · rintro ⟨hr, hfold, hbuild⟩
    rw [irregular_buildPath hbuild, if_neg (by decide)]
    have hmatch := (matchRoute_eq_some hr).mpr ⟨rfl, hfold, hbuild⟩
    -- some round of the loop succeeds, and what it finds is built like this path
    have hsome : (order.findSome? (matchRoute L method path)).isSome :=
      List.findSome?_isSome_iff.mpr ⟨r, horder.mem_iff.mpr hr, by rw [hmatch]; rfl⟩
    obtain ⟨⟨r', labelName'⟩, hfound⟩ := Option.isSome_iff_exists.mp hsome
    obtain ⟨r₁, hr₁, hmatch₁⟩ := exists_of_findSome?_eq_some hfound
    have hr₁' := horder.mem_iff.mp hr₁
    obtain ⟨rfl, -, hbuild₁⟩ := (matchRoute_eq_some hr₁').mp hmatch₁
    obtain ⟨hsame, rfl⟩ := buildPath_inj hbuild₁ hbuild
    rw [hfound, endpoints_differ r' hr₁' r hr hsame]

/-! ## Forms -/

/-- A loop that stops at its first error ends well if every round does. -/
theorem forM_eq_ok {ε α : Type} {f : α → Except ε Unit} {l : List α} :
    l.forM f = .ok () ↔ ∀ x ∈ l, f x = .ok () := by
  induction l with
  | nil => simp [List.forM, pure, Except.pure]
  | cons x l ih =>
    rw [forall_mem_cons, ← ih]
    change (f x >>= fun _ => l.forM f) = _ ↔ _
    cases hx : f x with
    | error | ok => simp [bind, Except.bind]

/-- What a form check accepts, in terms of the entries of the form. -/
theorem validate_eq_ok {order : Range String (List String)} {form : Values} {gatedEnabled : Bool} :
    validate L order e form gatedEnabled = .ok () ↔
      ∃ r ∈ routes, r.endpoint = e ∧ (r.gated = true → gatedEnabled = true) ∧
        (∀ name values, form.lookup name = some values → validateEntry L r name values = .ok ()) ∧
        ∀ p ∈ r.params, p.required = true → valuesOf form p.name ≠ [] := by
  have hentries : ∀ r, (order.list form).forM (fun x => validateEntry L r x.1 x.2) = .ok () ↔
      ∀ name values, form.lookup name = some values →
        validateEntry L r name values = .ok () := by
    intro r
    rw [forM_eq_ok]
    constructor
    · exact fun h name values hlookup => h ⟨name, values⟩ (order.mem_list form |>.mpr hlookup)
    · exact fun h x hx => h x.1 x.2 (order.mem_list form |>.mp hx)
  have hparams : ∀ r : Route, r.params.forM (fun p =>
      if p.required && (valuesOf form p.name).isEmpty then
        (.error ⟨.invalidParam, L.quote p.name ++ " is required by endpoint " ++
          L.quote e.text⟩ : Except Err Unit)
      else .ok ()) = .ok () ↔
      ∀ p ∈ r.params, p.required = true → valuesOf form p.name ≠ [] := by
    intro r
    rw [forM_eq_ok]
    refine forall₂_congr fun p _ => ?_
    split
    · rename_i hmissing
      simp_all
    · rename_i hpresent
      simp_all
  unfold validate
  simp only [bind_eq_ok, get_eq_ok, and_assoc]
  refine exists_congr fun r => and_congr_right fun _ => and_congr_right fun _ => ?_
  cases hgate : r.gated && !gatedEnabled with
  | false => simp_all [bind_eq_ok]
  | true => simp_all

end prom_fleet.promapi
