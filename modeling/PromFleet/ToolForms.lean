-- The forms of the requests that the query tools build: they pass the allow-list, with the step
-- that the result reports, if and only if the allow-list takes the expression and the timeout and
-- the step are whole milliseconds.
import PromFleet.DurationLaws
import PromFleet.PointBudget
import PromFleet.PromAPILaws

namespace prom_fleet.mcptools

open fleet gotime map_range promapi render List

/-! ## Forms -/

/-- The endpoint in the table of the allow-list. -/
def Endpoint.api : Endpoint → promapi.Endpoint
  | .query => .query
  | .queryRange => .queryRange

/-- `strconv.FormatFloat(float64(n)/1e9, 'f', -1, 64)`, with what is assumed of its text. -/
structure TimePrinter (L : GoLib) where
  print : Int → String
  isFloat : ∀ n, (L.parseFloat (print n)).isSome = true
  plain : ∀ n, ∀ c ∈ (print n).toList, isForbiddenRune c = false
  /-- The count of the nanoseconds has 64 bits. -/
  short : ∀ n, minDuration ≤ n ∧ n ≤ maxDuration →
    (print n).utf8ByteSize ≤ promapi.maxParamBytes

/-- The library of the allow-list, which is that of the tools. -/
def Tools.api (t : Tools) (nonPositive : String → Bool) : Lib where
  go := t.lib
  quote := t.texts.quote
  nonPositive := nonPositive

variable {L : GoLib} (P : TimePrinter L)

def FormValue.printed : FormValue → String
  | .text s => s
  | .time t => P.print (unixNano t)

/-- The form of a request as `url.Values`, from the calls of `form.Set`. -/
def Call.values (call : Call) : Values :=
  call.form.foldl (fun m x => m.insert x.1 [x.2.printed P]) ∅

variable {call : Call}

theorem lookup_values {P : TimePrinter L} {name : String} {vs : List String}
    (hnodup : (call.form.map Prod.fst).Nodup) :
    (call.values P).lookup name = some vs ↔ ∃ x ∈ call.form, x.1 = name ∧ [x.2.printed P] = vs :=
  lookup_inserts_empty Prod.fst (fun x => [x.2.printed P]) hnodup

variable {p : promapi.Param} {api : Lib} {r : promapi.Route}

theorem route_names_nodup : ∀ r ∈ routes, (r.params.map promapi.Param.name).Nodup := by
  decide +kernel

theorem validateEntry_single (hr : r ∈ routes) {name v : String} :
    validateEntry api r name [v] = .ok () ↔
      ∃ p ∈ r.params, p.name = name ∧ validateValue api p v = .ok () := by
  have hlookup : ∀ p, (byName r.params).lookup name = some p ↔
      ∃ x ∈ r.params, x.name = name ∧ x = p := fun p =>
    lookup_inserts_empty promapi.Param.name (fun p => p) (route_names_nodup r hr)
  unfold validateEntry
  cases hp : (byName r.params).lookup name with
  | none =>
    refine ⟨nofun, fun ⟨p, hmem, hname, _⟩ => ?_⟩
    cases hp.symm.trans ((hlookup p).mpr ⟨p, hmem, hname, rfl⟩)
  | some p =>
    obtain ⟨_, hmem, hname, rfl⟩ := (hlookup p).mp hp
    simp only [length_singleton, lt_irrefl, decide_false, Bool.and_false, Bool.false_eq_true,
      if_false]
    rw [if_neg (by decide), promapi.forM_eq_ok, forall_mem_singleton, mapError_eq_ok]
    refine ⟨fun h => ⟨_, hmem, hname, h⟩, fun ⟨p', hmem', hname', h⟩ => ?_⟩
    rwa [← inj_on_of_nodup_map (route_names_nodup r hr) hmem' hmem (hname'.trans hname.symm)]

/-- A form with the first `n` parameters of its route, and all that are required, passes the
allow-list if and only if its values do. -/
theorem validate_iff {P : TimePrinter L} {order : Range String (List String)}
    {gatedEnabled : Bool} (n : Nat) (vs : List FormValue) (hr : r ∈ routes)
    (hendpoint : r.endpoint = call.endpoint.api) (hgated : r.gated = false)
    (hform : call.form = ((r.params.take n).map promapi.Param.name).zip vs)
    (hnames : call.form.map Prod.fst = (r.params.take n).map promapi.Param.name)
    (hrequired : ∀ p ∈ r.params, p.required = true →
      p.name ∈ (r.params.take n).map promapi.Param.name) :
    validate api order call.endpoint.api (call.values P) gatedEnabled = .ok () ↔
      ∀ x ∈ (r.params.take n).zip vs, validateValue api x.1 (x.2.printed P) = .ok () := by
  have hparams := route_names_nodup r hr
  have hnodup : (call.form.map Prod.fst).Nodup :=
    hnames ▸ hparams.sublist ((take_sublist n r.params).map _)
  have hentries : (∀ x ∈ call.form, validateEntry api r x.1 [x.2.printed P] = .ok ()) ↔
      ∀ x ∈ (r.params.take n).zip vs, validateValue api x.1 (x.2.printed P) = .ok () := by
    rw [hform, zip_map_left, forall_mem_map]
    refine forall₂_congr fun x hx => (validateEntry_single hr).trans ?_
    have hmem := mem_of_mem_take (of_mem_zip hx).1
    refine ⟨fun ⟨p, hp, hname, hv⟩ => ?_, fun hv => ⟨x.1, hmem, rfl, hv⟩⟩
    rwa [← inj_on_of_nodup_map hparams hp hmem hname]
  rw [validate_eq_ok, ← hentries]
  constructor
  · rintro ⟨r', hr', hendpoint', -, hall, -⟩ x hx
    obtain rfl := endpoints_differ r' hr' r hr (hendpoint'.trans hendpoint.symm)
    exact hall _ _ ((lookup_values hnodup).mpr ⟨x, hx, rfl, rfl⟩)
  · intro h
    refine ⟨r, hr, hendpoint, fun hg => ?_, fun name vs hlookup => ?_, fun p hp hreq hempty => ?_⟩
    · cases hgated.symm.trans hg
    · obtain ⟨x, hx, rfl, rfl⟩ := (lookup_values hnodup).mp hlookup
      exact h x hx
    · obtain ⟨x, hx, hname⟩ := mem_map.mp (hnames ▸ hrequired p hp hreq)
      unfold valuesOf at hempty
      rw [(lookup_values hnodup).mpr ⟨x, hx, hname, rfl⟩] at hempty
      cases hempty

/-! ## The forms of the tools -/

def Request.expr : Request → String
  | .query arg => arg.query
  | .queryRange arg => arg.query
  | .fanoutQuery arg => arg.query

/-- The timeout of a request, if its form carries one. -/
def Tools.timeoutOf (t : Tools) : Request → Option Int
  | .query arg =>
    some (effectiveTimeout ((t.parseDuration arg.timeout).toOption.getD 0) (30 * second))
  | .queryRange arg =>
    some (effectiveTimeout ((t.parseDuration arg.timeout).toOption.getD 0) (60 * second))
  | .fanoutQuery _ => none

/-- A request with an expression and a timeout, as a tool builds it. -/
inductive Built (q : String) : Option Int → Option RangePlan → Call → Prop
  | query (id : String) (instant timeout : Int) :
    Built q (some timeout) none ⟨id, .query, [("query", .text q), ("time", .time instant),
      ("timeout", .text (formatDuration timeout))], timeout⟩
  | queryRange (plan : RangePlan) (id : String) (timeout : Int)
    (hdown : plan.down.appliedStep = formatDuration plan.step) :
    Built q (some timeout) (some plan) ⟨id, .queryRange, [("query", .text q),
      ("start", .time plan.start), ("end", .time plan.finish),
      ("step", .text (formatDuration plan.step)), ("timeout", .text (formatDuration timeout))],
      timeout⟩
  | fanoutQuery (id : String) (instant timeout : Int) :
    Built q none none ⟨id, .query, [("query", .text q), ("time", .time instant)], timeout⟩
  | fanoutRange (plan : RangePlan) (id : String) (timeout : Int)
    (hdown : plan.down.appliedStep = formatDuration plan.step) :
    Built q none (some plan) ⟨id, .queryRange, [("query", .text q), ("start", .time plan.start),
      ("end", .time plan.finish), ("step", .text (formatDuration plan.step))], timeout⟩

section Built

variable {t : Tools} {p : Principal} {clock : Clock}

theorem timeoutOf_mem {r : Request} {d : Int} (h : t.timeoutOf r = some d) :
    0 < d ∧ d ≤ maxDuration := by
  unfold maxDuration
  cases r with
  | query | queryRange =>
    obtain rfl := Option.some.inj h
    unfold Tools.effectiveTimeout second
    split <;> omega
  | fanoutQuery => cases h

theorem validateExpr_ok {q cluster : String} (h : t.validateExpr q cluster = .ok ()) :
    q.utf8ByteSize ≤ promapi.maxPromQLBytes := by
  unfold Tools.validateExpr at h
  split at h
  · cases h
  split at h
  · cases h
  · rename_i hsize
    exact not_lt.mp hsize

variable {call : Call}

theorem query_built {arg : QueryIn} (h : t.query p clock arg = .ok call) :
    arg.query.utf8ByteSize ≤ promapi.maxPromQLBytes ∧
      Built arg.query (t.timeoutOf (.query arg)) none call := by
  obtain ⟨c, -, h⟩ := bind_eq_ok.mp h
  obtain ⟨format, -, h⟩ := bind_eq_ok.mp h
  obtain ⟨_, -, h⟩ := bind_eq_ok.mp h
  obtain ⟨_, hexpr, h⟩ := bind_eq_ok.mp h
  obtain ⟨parsed, -, h⟩ := bind_eq_ok.mp h
  obtain ⟨_, -, h⟩ := bind_eq_ok.mp h
  obtain ⟨timeout, htimeout, h⟩ := bind_eq_ok.mp h
  cases h
  obtain rfl := (Tools.durationArg_ok htimeout).1
  exact ⟨validateExpr_ok hexpr, .query c.id _ _⟩

theorem queryRange_built {arg : QueryRangeIn} {plan : RangePlan}
    (h : t.queryRange p clock arg = .ok (plan, call)) :
    arg.query.utf8ByteSize ≤ promapi.maxPromQLBytes ∧
      Built arg.query (t.timeoutOf (.queryRange arg)) (some plan) call := by
  obtain ⟨c, -, h⟩ := bind_eq_ok.mp h
  obtain ⟨format, -, h⟩ := bind_eq_ok.mp h
  obtain ⟨_, -, h⟩ := bind_eq_ok.mp h
  obtain ⟨_, hexpr, h⟩ := bind_eq_ok.mp h
  obtain ⟨⟨start, finish⟩, -, h⟩ := bind_eq_ok.mp h
  obtain ⟨userStep, -, h⟩ := bind_eq_ok.mp h
  obtain ⟨timeout, htimeout, h⟩ := bind_eq_ok.mp h
  obtain ⟨limits, -, h⟩ := bind_eq_ok.mp h
  cases h
  obtain rfl := (Tools.durationArg_ok htimeout).1
  exact ⟨validateExpr_ok hexpr, .queryRange _ c.id _ rfl⟩

theorem fanoutQuery_built {arg : FanoutQueryIn} {plan : FanoutPlan}
    (h : t.fanoutQuery p clock arg = .ok plan) (c : Cluster) :
    arg.query.utf8ByteSize ≤ promapi.maxPromQLBytes ∧
      Built arg.query none plan.ranged (plan.call c) := by
  obtain ⟨-, hform, -, -, -, hexpr, -⟩ := Tools.fanoutQuery_ok h
  refine ⟨validateExpr_ok hexpr, ?_⟩
  obtain ⟨mode, _⟩ := plan
  cases mode with
  | instant =>
    obtain ⟨parsed, -, hform⟩ := bind_eq_ok.mp hform
    obtain ⟨_, -, hform⟩ := bind_eq_ok.mp hform
    cases hform
    exact .fanoutQuery c.id _ _
  | range =>
    obtain ⟨range, hrange, hform⟩ := bind_eq_ok.mp hform
    have hdown : range.down.appliedStep = formatDuration range.step := by
      obtain ⟨_, -, hrange⟩ := bind_eq_ok.mp hrange
      obtain ⟨_, -, hrange⟩ := bind_eq_ok.mp hrange
      obtain ⟨_, -, hrange⟩ := bind_eq_ok.mp hrange
      obtain ⟨_, -, hrange⟩ := bind_eq_ok.mp hrange
      obtain rfl := Except.ok.inj hrange
      rfl
    cases hform
    exact .fanoutRange _ c.id _ hdown

theorem dispatched_built {r : Request} {ranged : Option RangePlan} {calls : List Call}
    (h : t.dispatched p clock r = .ok (ranged, calls)) (hcall : call ∈ calls) :
    r.expr.utf8ByteSize ≤ promapi.maxPromQLBytes ∧ Built r.expr (t.timeoutOf r) ranged call := by
  cases r with
  | query arg =>
    obtain ⟨sent, hsent, hx⟩ := map_eq_ok.mp h
    cases hx
    rw [mem_singleton.mp hcall]
    exact query_built hsent
  | queryRange arg =>
    obtain ⟨⟨plan, sent⟩, hsent, hx⟩ := map_eq_ok.mp h
    cases hx
    rw [mem_singleton.mp hcall]
    exact queryRange_built hsent
  | fanoutQuery arg =>
    obtain ⟨plan, hsent, hx⟩ := map_eq_ok.mp h
    cases hx
    obtain ⟨c, -, rfl⟩ := mem_map.mp hcall
    exact fanoutQuery_built hsent c

end Built

/-! ## The values of a form -/

section Values

variable {t : Tools} {P : TimePrinter t.lib} {nonPositive : String → Bool} {p : promapi.Param}

/-- An expression that the allow-list takes. -/
structure PlainExpr (q : String) : Prop where
  visible : trimSpace q ≠ ""
  plain : ∀ c ∈ q.toList, isForbiddenRune c = false

variable {q : String}

theorem validateValue_expr (hsize : q.utf8ByteSize ≤ promapi.maxPromQLBytes)
    (hp : p.kind = .promQL) : validateValue api p q = .ok () ↔ PlainExpr q := by
  unfold validateValue
  simp only [hp, if_true]
  rw [if_neg (by omega)]
  cases hindex : indexFunc isForbiddenRune q with
  | some i =>
    refine ⟨nofun, fun hq => ?_⟩
    cases hindex.symm.trans (promapi.indexFunc_eq_none.mpr hq.plain)
  | none =>
    dsimp only
    split
    · rename_i hblank
      exact ⟨nofun, fun hq => absurd hblank hq.visible⟩
    · rename_i hvisible
      exact ⟨fun _ => ⟨hvisible, promapi.indexFunc_eq_none.mp hindex⟩, fun _ => rfl⟩

/-- What the grammar of durations takes has digits and units only. -/
theorem durationGroups_char {units : List (List Char)} {l : List Char}
    (h : durationGroups units l = true) : ∀ c ∈ l, c.isDigit = true ∨ ∃ u ∈ units, c ∈ u := by
  induction units generalizing l with
  | nil =>
    rw [isEmpty_iff.mp h]
    simp
  | cons unit units ih =>
    intro c hc
    have hmore : (∃ u ∈ units, c ∈ u) → ∃ u ∈ unit :: units, c ∈ u :=
      Exists.imp fun u hu => ⟨mem_cons_of_mem _ hu.1, hu.2⟩
    simp only [durationGroups, Bool.or_eq_true, Bool.and_eq_true, isPrefixOf_iff_prefix] at h
    rcases h with h | ⟨⟨-, hunit⟩, h⟩
    · exact (ih h c hc).imp_right hmore
    rw [← takeWhile_append_dropWhile (p := Char.isDigit) (l := l),
      ← prefix_iff_eq_append.mp hunit] at hc
    rcases mem_append.mp hc with hc | hc
    · exact .inl (mem_takeWhile_imp hc)
    rcases mem_append.mp hc with hc | hc
    · exact .inr ⟨unit, mem_cons_self, hc⟩
    · exact (ih h c hc).imp_right hmore

/-- The allow-list takes a positive duration if and only if it is a whole number of
milliseconds. -/
theorem validateValue_duration (hL : NoUnitFloats t.lib) {d : Int} (hpos : 0 < d)
    (hmax : d ≤ maxDuration) (hp : p.kind = .duration) :
    validateValue (t.api nonPositive) p (formatDuration d) = .ok () ↔ d % 1000000 = 0 := by
  refine ⟨fun h => ?_, fun hwhole => promapi.validateValue_formatDuration hL hp hpos hwhole hmax⟩
  by_contra hrest
  obtain ⟨x, -, htext, c, hmark, hc⟩ := formatDuration_mark hpos hrest
  have hnone : (t.api nonPositive).go.parseFloat (formatDuration d) = none :=
    hL _ 's' (by decide) (by simp [htext])
  have hunits : ∀ c ∈ ['.', 'n', 'µ'], c.isDigit = false ∧
      ∀ u ∈ [['y'], ['w'], ['d'], ['h'], ['m'], ['s'], ['m', 's']], c ∉ u := by
    simp
  have hgrammar : promDurationRE (formatDuration d) = true := by
    simp only [validateValue, hp, reduceCtorEq, if_false, validateDuration, hnone] at h
    split at h
    · cases h
    split at h
    · cases h
    split_ifs at h with hempty hgrammar
    exact hgrammar
  obtain ⟨hdigit, hunit⟩ := hunits c hmark
  rcases durationGroups_char hgrammar c (by simp [htext, hc]) with hc | ⟨u, hu, hc⟩
  · cases hc.symm.trans hdigit
  · exact hunit u hu hc

theorem validateValue_time (n : Int) (hp : p.kind = .time) :
    validateValue (t.api nonPositive) p (FormValue.printed P (.time n)) = .ok () := by
  have hshort := P.short (unixNano n) (wrap64_mem _)
  unfold validateValue FormValue.printed
  simp only [hp, reduceCtorEq, if_false]
  rw [if_neg (by omega), promapi.indexFunc_eq_none.mpr (P.plain _)]
  refine if_pos ?_
  rw [Bool.or_eq_true]
  exact .inr (P.isFloat _)

variable {call : Call} {ranged : Option RangePlan} {timeout : Option Int}

/-- The parameter of the step of a range. -/
def stepParam : promapi.Param := { name := "step", kind := .duration, required := true }

/-- A request passes the allow-list if and only if its expression and its durations do. -/
theorem Built.accepted_iff (h : Built q timeout ranged call) (hL : NoUnitFloats t.lib)
    (hsize : q.utf8ByteSize ≤ promapi.maxPromQLBytes)
    (htimeout : ∀ d, timeout = some d → 0 < d ∧ d ≤ maxDuration)
    (order : Range String (List String)) (gatedEnabled : Bool) :
    validate (t.api nonPositive) order call.endpoint.api (call.values P) gatedEnabled = .ok () ↔
      PlainExpr q ∧ (∀ plan, ranged = some plan →
        validateValue (t.api nonPositive) stepParam (formatDuration plan.step) = .ok ()) ∧
      ∀ d, timeout = some d → d % 1000000 = 0 := by
  have hexpr : ∀ p : promapi.Param, p.kind = .promQL →
      (validateValue (t.api nonPositive) p q = .ok () ↔ PlainExpr q) :=
    fun p => validateValue_expr hsize
  have htime : ∀ (n : Int) (p : promapi.Param), p.kind = .time →
      validateValue (t.api nonPositive) p (P.print (unixNano n)) = .ok () :=
    fun n p => validateValue_time n
  have hsent : ∀ d, timeout = some d → ∀ p : promapi.Param, p.kind = .duration →
      (validateValue (t.api nonPositive) p (formatDuration d) = .ok () ↔ d % 1000000 = 0) :=
    fun d hd p => validateValue_duration hL (htimeout d hd).1 (htimeout d hd).2
  have hquery : routes.head (by decide) ∈ routes := mem_cons_self
  have hrange : routes.tail.head (by decide) ∈ routes := mem_cons_of_mem _ mem_cons_self
  cases h with
  | query id instant timeout =>
    refine (validate_iff 3 [_, _, _] hquery rfl rfl rfl rfl (by decide)).trans ?_
    simp [routes, FormValue.printed, hexpr, htime, hsent]
  | queryRange plan id timeout hdown =>
    refine (validate_iff 5 [_, _, _, _, _] hrange rfl rfl rfl rfl (by decide)).trans ?_
    simp [routes, FormValue.printed, hexpr, htime, hsent, stepParam]
  | fanoutQuery id instant timeout =>
    refine (validate_iff 2 [_, _] hquery rfl rfl rfl rfl (by decide)).trans ?_
    simp [routes, FormValue.printed, hexpr, htime]
  | fanoutRange plan id timeout hdown =>
    refine (validate_iff 4 [_, _, _, _] hrange rfl rfl rfl rfl (by decide)).trans ?_
    simp [routes, FormValue.printed, hexpr, htime, stepParam]

/-- The step that is sent is the text that the result reports. -/
theorem Built.step_values {plan : RangePlan} (h : Built q timeout (some plan) call) :
    valuesOf (call.values P) "step" = [plan.down.appliedStep] ∧
      plan.down.appliedStep = formatDuration plan.step := by
  have hvalue : ("step", FormValue.text (formatDuration plan.step)) ∈ call.form ∧
      (call.form.map Prod.fst).Nodup ∧
      plan.down.appliedStep = formatDuration plan.step := by
    cases h with
    | queryRange plan id timeout hdown => exact ⟨by simp, by simp, hdown⟩
    | fanoutRange plan id timeout hdown => exact ⟨by simp, by simp, hdown⟩
  obtain ⟨hmem, hnodup, hdown⟩ := hvalue
  refine ⟨?_, hdown⟩
  unfold valuesOf
  rw [(lookup_values hnodup).mpr ⟨_, hmem, rfl, rfl⟩, hdown]
  rfl

end Values

/-! ## The law -/

/-- The step of a range is a positive number of milliseconds: it can be rounded up or a scrape
interval is positive, and a scrape interval that is wider than the rounded step is whole. -/
def Tools.StepFits (t : Tools) (a : RangeAsk) : Prop :=
  (a.unsnapped ≤ maxRounded ∨ 0 < t.widest a.targets) ∧
    (t.widest a.targets ≤ snapUp a.unsnapped ∨ t.widest a.targets % 1000000 = 0)

theorem stepFits_iff {t : Tools} {a : RangeAsk} (huser : a.userStep ≤ maxDuration) :
    0 < t.stepOf a ∧ t.stepOf a % 1000000 = 0 ↔ t.StepFits a := by
  obtain ⟨hpos, hmax⟩ : 0 < a.unsnapped ∧ a.unsnapped ≤ maxDuration := unsnapped_mem huser
  have hwidest := (Tools.widest_largest (t := t) a.targets).1
  unfold Tools.stepOf Tools.StepFits
  by_cases hround : a.unsnapped ≤ maxRounded
  · obtain ⟨hup, hwhole⟩ := snapUp_up hpos hround
    omega
  · have hneg := snapUp_neg (not_le.mp hround) hmax
    omega

/-- Every request that a query tool hands to the proxy passes the allow-list, with the step that the
result reports, if and only if the allow-list takes the expression, the timeout is a whole number of
milliseconds, and so is the step. -/
theorem built_requests_pass_the_allow_list_iff_whole (t : Tools) (P : TimePrinter t.lib)
    (hL : NoUnitFloats t.lib) (nonPositive : String → Bool) (order : Range String (List String))
    (gatedEnabled : Bool) (p : Principal) (clock : Clock) (r : Request)
    (ranged : Option RangePlan) (calls : List Call)
    (h : t.dispatched p clock r = .ok (ranged, calls)) : (∀ call ∈ calls,
        validate (t.api nonPositive) order call.endpoint.api (call.values P) gatedEnabled = .ok () ∧
        ∀ plan, ranged = some plan → valuesOf (call.values P) "step" = [plan.down.appliedStep] ∧
          0 < plan.step ∧ parsePromDuration t.lib plan.down.appliedStep = some plan.step) ↔
      PlainExpr r.expr ∧ (∀ d, t.timeoutOf r = some d → d % 1000000 = 0) ∧
        ∀ a, t.asked p clock.now r = some a → t.StepFits a := by
  obtain ⟨hne, hask⟩ := dispatched_ok h
  obtain ⟨first, hfirst⟩ := exists_mem_of_ne_nil _ hne
  have hbuilt : ∀ call ∈ calls, Built r.expr (t.timeoutOf r) ranged call :=
    fun call hcall => (dispatched_built h hcall).2
  have hpass : ∀ call ∈ calls, (validate (t.api nonPositive) order call.endpoint.api
      (call.values P) gatedEnabled = .ok () ↔ _) := fun call hcall =>
    (hbuilt call hcall).accepted_iff hL (dispatched_built h hcall).1 (fun _ => timeoutOf_mem) _ _
  rcases hask with ⟨rfl, hask, -⟩ | ⟨plan, rfl, hask, ha, -, -, hstep, -⟩
  · rw [hask]
    constructor
    · intro hall
      obtain ⟨hexpr, -, htimeout⟩ := (hpass first hfirst).mp (hall first hfirst).1
      exact ⟨hexpr, htimeout, nofun⟩
    · rintro ⟨hexpr, htimeout, -⟩ call hcall
      exact ⟨(hpass call hcall).mpr ⟨hexpr, nofun, htimeout⟩, nofun⟩
  have hmax : plan.step ≤ maxDuration := by
    have := (Tools.stepOf_mem (t := t) plan.toRangeAsk).2
    omega
  have hfits : 0 < plan.step ∧ plan.step % 1000000 = 0 ↔ t.StepFits plan.toRangeAsk := by
    refine Iff.trans ?_ (stepFits_iff ha.userStep_le)
    omega
  rw [hask]
  constructor
  · intro hall
    obtain ⟨hok, hreport⟩ := hall first hfirst
    obtain ⟨hexpr, -, htimeout⟩ := (hpass first hfirst).mp hok
    obtain ⟨-, hpos, hread⟩ := hreport plan rfl
    refine ⟨hexpr, htimeout, ?_⟩
    rintro _ ⟨⟩
    refine hfits.mp ⟨hpos, ?_⟩
    by_contra hrest
    rw [((hbuilt first hfirst).step_values (P := P)).2, parsePromDuration_rest hL hpos hrest]
      at hread
    cases hread
  · rintro ⟨hexpr, htimeout, hfit⟩ call hcall
    obtain ⟨hpos, hwhole⟩ := hfits.mpr (hfit _ rfl)
    refine ⟨(hpass call hcall).mpr ⟨hexpr, ?_, htimeout⟩, ?_⟩ <;> rintro _ ⟨⟩
    · exact (validateValue_duration hL hpos hmax rfl).mpr hwhole
    · obtain ⟨hvalues, hdown⟩ := (hbuilt call hcall).step_values (P := P)
      refine ⟨hvalues, hpos, ?_⟩
      rw [hdown]
      exact parsePromDuration_formatDuration hL hpos hwhole hmax

/-! ## A library that reads whole numbers -/

def isWhole (s : String) : Bool := !s.toList.isEmpty && s.toList.all Char.isDigit

def wholeValue (s : String) : Int := Nat.ofDigitChars 10 s.toList 0

/-- Whole numbers, and one number with a fraction. -/
def wholeLib : GoLib where
  parseFloat s :=
    if s = "1.0000001" then some ⟨true, 1, 100, 1000000100, by decide⟩
    else if isWhole s then
      some ⟨true, wholeValue s, 0, wrap64 (wholeValue s * second), wrap64_mem _⟩
    else none
  timeParse _ _ := none
  wholeSeconds d := d / second
  wholeSeconds_nonneg := plainLib.wholeSeconds_nonneg
  wholeSeconds_le := plainLib.wholeSeconds_le

theorem wholeLib_noUnitFloats : NoUnitFloats wholeLib := by
  intro s c hc hlast
  have hunits : ∀ c ∈ ['d', 'h', 'm', 's'], c.isDigit = false ∧ c ≠ '1' := by simp
  obtain ⟨hdigit, hone⟩ := hunits c hc
  have hfraction : s ≠ "1.0000001" := by
    rintro rfl
    exact hone (Option.some.inj hlast).symm
  have hwhole : isWhole s = false := by
    rw [isWhole, Bool.and_eq_false_iff, all_eq_false]
    exact .inr ⟨c, mem_of_getLast? hlast, by simp [hdigit]⟩
  simp only [wholeLib, hfraction, hwhole, if_false, Bool.false_eq_true]

theorem toList_repr_digit {n : Nat} {c : Char} (hc : c ∈ n.repr.toList) : c.isDigit = true :=
  isDigit_toDigits (Nat.toList_repr ▸ hc)

/-- The text of an instant that is a whole second since 1970. -/
def secondsPrinter : TimePrinter wholeLib where
  print n := (n / second).toNat.repr
  isFloat n := by
    have hwhole : isWhole (n / second).toNat.repr = true := by
      simp only [isWhole, Bool.and_eq_true, Bool.not_eq_true', isEmpty_eq_false_iff, all_eq_true]
      exact ⟨Nat.toList_repr ▸ Nat.toDigits_ne_nil, fun c => toList_repr_digit⟩
    simp only [wholeLib, hwhole, if_true]
    split <;> rfl
  plain n c hc := by
    have hrange := isDigit_range (toList_repr_digit hc)
    simp only [isForbiddenRune, Bool.or_eq_false_iff, Bool.and_eq_false_iff,
      decide_eq_false_iff_not]
    omega
  short n hn := by
    have hlength : (Nat.toDigits 10 (n / second).toNat).length ≤ 20 := by
      rw [Nat.length_toDigits_le_iff (by decide) (by decide)]
      unfold maxDuration at hn
      unfold second
      omega
    have hsize := promapi.utf8ByteSize_le (n / second).toNat.repr.toList
    rw [String.ofList_toList, Nat.toList_repr] at hsize
    unfold promapi.maxParamBytes
    omega

def wholeTools : Tools := { smallTools with lib := wholeLib }

/-- Whether the allow-list takes the requests of a call. -/
def allowVerdicts (r : Request) : Option (List Bool) :=
  (wholeTools.dispatched onlyEast (stopped noon) r).toOption.map fun x => x.2.map fun call =>
    (validate (wholeTools.api fun s => decide (wholeValue s = 0)) ascending
      call.endpoint.api (call.values secondsPrinter) false).isOk

/-- A month in steps of a minute is sent in steps of a day, and the form passes. -/
theorem a_month_passes_the_allow_list : ∃ plan calls, wholeTools.dispatched onlyEast (stopped noon)
        (.queryRange (rangeOf "now-30d" "now" "1m")) = .ok (some plan, calls) ∧
      calls.length = 1 ∧ ∀ call ∈ calls,
        validate (wholeTools.api fun _ => false) ascending call.endpoint.api
          (call.values secondsPrinter) false = .ok () ∧
        valuesOf (call.values secondsPrinter) "step" = [plan.down.appliedStep] ∧
        parsePromDuration wholeLib plan.down.appliedStep = some plan.step := by
  have hplain : ("up".toList.all fun c => !isForbiddenRune c) = true := by decide
  have hexpr : PlainExpr "up" := ⟨by decide, fun c hc => by simpa using all_eq_true.mp hplain c hc⟩
  obtain ⟨plan, calls, hrun, hlen⟩ : ∃ plan calls, wholeTools.dispatched onlyEast (stopped noon)
      (.queryRange (rangeOf "now-30d" "now" "1m")) = .ok (some plan, calls) ∧ calls.length = 1 :=
    ⟨_, _, rfl, rfl⟩
  have htimeout : ∀ d, wholeTools.timeoutOf (.queryRange (rangeOf "now-30d" "now" "1m")) = some d →
      d % 1000000 = 0 := by
    rintro d ⟨⟩
    decide +kernel
  have hfits : ∀ a, wholeTools.asked onlyEast (stopped noon).now
      (.queryRange (rangeOf "now-30d" "now" "1m")) = some a → wholeTools.StepFits a := by
    rintro a ⟨⟩
    unfold Tools.StepFits
    decide +kernel
  refine ⟨plan, calls, hrun, hlen, fun call hcall => ?_⟩
  obtain ⟨hpass, hstep⟩ := (built_requests_pass_the_allow_list_iff_whole wholeTools secondsPrinter
    wholeLib_noUnitFloats (fun _ => false) ascending false onlyEast (stopped noon) _ _ calls
    hrun).mpr ⟨hexpr, htimeout, hfits⟩ call hcall
  obtain ⟨hvalues, -, hparsed⟩ := hstep plan rfl
  exact ⟨hpass, hvalues, hparsed⟩

/-! ## What the conditions exclude -/

/-- An expression that ends with a line break and a timeout with a part of a millisecond
get past the checks of the tools, and the allow-list refuses the requests. A step of 106751
days at a cluster without a scrape interval is sent as no step at all. -/
theorem some_built_requests_fail :
    allowVerdicts (.query ⟨"east", "up\n", "", "", ""⟩) = some [false] ∧
      allowVerdicts (.query ⟨"east", "up", "", "1.0000001", ""⟩) = some [false] ∧
      (Tools.dispatched { wholeTools with scrapeInterval := fun _ => "" } onlyEast (stopped noon)
        (.queryRange (rangeOf "now-30d" "now" "292y171d"))).toOption.map (fun x =>
          (x.1.map fun plan => (plan.userStep, plan.down.appliedStep,
            parsePromDuration wholeLib plan.down.appliedStep),
          x.2.map fun call => valuesOf (call.values secondsPrinter) "step")) =
        some (some (106751 * day, "0s", some 0), [["0s"]]) := by
  decide +kernel

end prom_fleet.mcptools
