-- The spoke's half of the allow-list: its client reads the request of the hub back and
-- checks it again. What the hub builds, the spoke accepts, as the same call.
import PromFleet.Proxy
import Mathlib.Data.Countable.Basic
import Mathlib.Logic.Equiv.List

namespace prom_fleet.promclient

open interleave List fleet map_range promapi
open promproxy (Request Call Hub Proxy Env encode machine build smallLib smallProxy
  allows labelsOf callTo callerOf calm eastReg)

/-! ## The client -/

/-- The refusals of `Client.Do`, each with what its text names. All wrap `ErrNotAllowed`. -/
inductive NotAllowed where
  | nilRequest
  | noRoute (method path : String)
  | badForm (endpoint : Endpoint) (err : String)
  | api (e : promapi.Err)
  deriving DecidableEq

/-- `Client.Do` up to its round trip: the route, the label name and the form that it goes on
with. -/
def admitted (L : Lib) (parseQuery : String → Except String Values) (routeOrder : List Route)
    (formOrder : Range String (List String)) (allowStatusConfig : Bool) (req : Option Request) :
    Except NotAllowed (Route × String × Values) :=
  match req with
  | none => .error .nilRequest
  | some req =>
    match lookup L routeOrder req.method req.path with
    | none => .error (.noRoute req.method req.path)
    | some (route, labelName) =>
      match parseQuery req.form with
      | .error err => .error (.badForm route.endpoint err)
      | .ok form =>
        match validate L formOrder route.endpoint form allowStatusConfig with
        | .error e => .error (.api e)
        | .ok () => .ok (route, labelName, form)

/-! ## Forms on the wire -/

def Full (form : Values) : Prop :=
  ∀ name values, form.lookup name = some values → values ≠ []

/-- `url.ParseQuery` inverts `url.Values.Encode`, which writes nothing for a key without
values. -/
def Inverts (queryEscape : String → String) (parseQuery : String → Except String Values) : Prop :=
  ∀ form : Values, Full form → parseQuery (encode queryEscape form) = .ok form

/-- The form without the keys that have no value. -/
def present (form : Values) : Values :=
  (sweep (fun _ values => values.isEmpty) (ascending.list form) (form, 0)).1

variable (form : Values)

variable (name : String)

theorem lookup_present :
    (present form).lookup name = (form.lookup name).filter fun values => !values.isEmpty :=
  lookup_sweep ascending _ form name

theorem valuesOf_present : valuesOf (present form) name = valuesOf form name := by
  unfold valuesOf
  rw [lookup_present]
  cases form.lookup name with
  | none => rfl
  | some values => cases values <;> rfl

theorem mem_present :
    name ∈ present form ↔ name ∈ form ∧ !(valuesOf form name).isEmpty := by
  rw [Finmap.mem_iff, Finmap.mem_iff]
  simp only [lookup_present, Option.filter_eq_some_iff]
  constructor
  · rintro ⟨values, hlookup, hne⟩
    exact ⟨⟨values, hlookup⟩, by simpa [valuesOf, hlookup] using hne⟩
  · rintro ⟨⟨values, hlookup⟩, hne⟩
    exact ⟨values, hlookup, by simpa [valuesOf, hlookup] using hne⟩

theorem flatMap_valuesOf {W : Type} (f : String → String → W) (form : Values) :
    ((ascending.list form).flatMap fun x => x.2.map (f x.1)) =
      (sortedKeys form).flatMap fun name => (valuesOf form name).map (f name) := by
  refine (flatMap_ascending (fun name values => values.map (f name)) form).trans ?_
  congr 1
  funext name
  unfold valuesOf
  cases form.lookup name <;> rfl

variable (queryEscape : String → String)

/-- `Encode` writes nothing for a key without values. -/
theorem encode_present (form : Values) :
    encode queryEscape (present form) = encode queryEscape form := by
  let write (name v : String) : String := queryEscape name ++ "=" ++ queryEscape v
  unfold encode
  congr 1
  rw [flatMap_valuesOf write, flatMap_valuesOf write, sortedKeys_eq_filter (mem_present form)]
  simp only [valuesOf_present]
  induction sortedKeys form with
  | nil => rfl
  | cons name names ih =>
    rw [filter_cons, flatMap_cons]
    split
    · rw [flatMap_cons, ih]
    rename_i hempty
    have hnone : valuesOf form name = [] := by simpa using hempty
    rw [hnone, ih]
    rfl

variable {form : Values} {order : Range String (List String)}

/-- What is accepted with keys that have no value is accepted without them. -/
theorem validate_present {L : Lib} {order' : Range String (List String)} {e : Endpoint}
    {gatedEnabled : Bool} (h : validate L order e form gatedEnabled = .ok ()) :
    validate L order' e (present form) gatedEnabled = .ok () := by
  obtain ⟨r, hr, hre, hgate, hentries, hrequired⟩ := validate_eq_ok.mp h
  refine validate_eq_ok.mpr ⟨r, hr, hre, hgate, fun name values hlookup => ?_, fun p hp hreq => ?_⟩
  · rw [lookup_present, Option.filter_eq_some_iff] at hlookup
    exact hentries name values hlookup.1
  · rw [valuesOf_present]
    exact hrequired p hp hreq

/-! ## Agreement -/

variable {L : promproxy.Lib} {call : Call} {path : String} {route : Route}

/-- What the hub's checks have established about a call that passes them. -/
theorem build_eq_ok {enableConfig : Bool} (h : build L enableConfig order call = .ok (route, path))
    : route ∈ routes ∧ route.endpoint = call.endpoint ∧
      buildPath L.api call.endpoint call.labelName = .ok path ∧
      validate L.api order call.endpoint call.form enableConfig = .ok () := by
  obtain ⟨r, hget, h⟩ := bind_eq_ok.mp h
  obtain ⟨built, hpath, h⟩ := bind_eq_ok.mp h
  obtain ⟨u, hvalid, h⟩ := bind_eq_ok.mp h
  cases h
  obtain ⟨hr, hre⟩ := get_eq_ok.mp (mapError_eq_ok.mp hget)
  exact ⟨hr, hre, mapError_eq_ok.mp hpath, mapError_eq_ok.mp hvalid⟩

/-- A call that `authorizeAndBuild` accepts has passed the checks of the arguments. -/
theorem authorizeAndBuild_ok {ι : Type} [DecidableEq ι] {p : Proxy} {i : ι}
    {principal : Option Principal} {s t : Hub ι} {evs : List (Event promproxy.Ans Env (Hub ι))}
    (h : Path (machine ι p) i (p.authorizeAndBuild L principal call) s evs
      (.done (.ok (route, path))) t) :
    ∃ order, build L p.enableConfig order call = .ok (route, path) := by
  unfold Proxy.authorizeAndBuild at h
  split at h
  · obtain ⟨-, hq, -⟩ := h.of_done
    cases hq
  obtain ⟨e, cluster, _, u, evs', -, -, -, hjudge⟩ := Path.of_op h
  change Path _ i (p.judge L principal call cluster) _ _ _ _ at hjudge
  unfold Proxy.judge at hjudge
  split at hjudge
  · obtain ⟨-, hq, -⟩ := hjudge.of_done
    cases hq
  split at hjudge
  · obtain ⟨-, hq, -⟩ := hjudge.of_done
    cases hq
  · obtain ⟨e', order, _, _, _, -, -, -, hbuild⟩ := Path.of_op hjudge
    obtain ⟨-, hq, -⟩ := hbuild.of_done
    exact ⟨order, (Prog.done.inj hq).symm⟩

theorem equalFold_self : ∀ r ∈ routes, equalFold r.method r.method = true := by decide +kernel

/-- The spoke reads back what the hub has built: a path that resolves is one that was
built, for one route and one label name, in any order of the routes; and the request of a
call that the hub accepts passes the checks of the spoke, as the same call. -/
theorem hub_and_spoke_agree_on_the_allow_list (L : promproxy.Lib)
    (parseQuery : String → Except String Values) (hparse : Inverts L.queryEscape parseQuery) :
    (∀ order : List Route, order.Perm routes → ∀ method path route labelName,
      lookup L.api order method path = some (route, labelName) ↔
        route ∈ routes ∧ buildPath L.api route.endpoint labelName = .ok path ∧
          equalFold route.method method = true) ∧
    (∀ path, ∀ r ∈ routes, ∀ r' ∈ routes, ∀ labelName labelName',
      buildPath L.api r.endpoint labelName = .ok path →
      buildPath L.api r'.endpoint labelName' = .ok path → r = r' ∧ labelName = labelName') ∧
    (∀ (ι : Type) [DecidableEq ι] (p : Proxy) (i : ι) (principal : Option Principal) (call : Call)
      (s t : Hub ι) (evs : List (Event promproxy.Ans Env (Hub ι))) (route : Route)
      (path : String) (maxBytes : Int) (routeOrder : List Route)
      (formOrder : Range String (List String)), routeOrder.Perm routes →
      Path (machine ι p) i (p.authorizeAndBuild L principal call) s evs
        (.done (.ok (route, path))) t →
      ∃ form, admitted L.api parseQuery routeOrder formOrder p.enableConfig
          (some (Proxy.request L route path call maxBytes)) = .ok (route, call.labelName, form) ∧
        route.endpoint = call.endpoint ∧
        ∀ name, valuesOf form name = valuesOf call.form name) := by
  refine ⟨fun order horder method path route labelName => ?_,
    fun path r hr r' hr' labelName labelName' h h' => ?_,
    fun ι _ p i principal call s t evs route path maxBytes routeOrder formOrder horder h => ?_⟩
  · rw [lookup_eq_some horder]
    exact and_congr_right fun _ => and_comm
  · obtain ⟨hsame, hlabel⟩ := buildPath_inj h h'
    exact ⟨endpoints_differ r hr r' hr' hsame, hlabel⟩
  obtain ⟨order, hbuild⟩ := authorizeAndBuild_ok h
  obtain ⟨hr, hre, hpath, hvalid⟩ := build_eq_ok hbuild
  have hlookup : lookup L.api routeOrder route.method path = some (route, call.labelName) :=
    (lookup_eq_some horder).mpr ⟨hr, equalFold_self route hr, hre ▸ hpath⟩
  have hform : parseQuery (encode L.queryEscape call.form) = .ok (present call.form) := by
    rw [← encode_present]
    refine hparse _ fun name values hvalues => ?_
    rw [lookup_present, Option.filter_eq_some_iff] at hvalues
    simpa using hvalues.2
  refine ⟨present call.form, ?_, hre, valuesOf_present call.form⟩
  unfold admitted Proxy.request
  dsimp only
  rw [hlookup]
  rw [hform]
  dsimp only
  rw [hre, validate_present hvalid]

/-! ## A codec -/

/-- The names and values of a form, in the order in which `Encode` writes them. -/
def pairs (form : Values) : List (String × String) :=
  (ascending.list form).flatMap fun x => x.2.map fun v => (x.1, v)

theorem encode_eq (form : Values) : encode queryEscape form =
      "&".intercalate ((pairs form).map fun x => queryEscape x.1 ++ "=" ++ queryEscape x.2) := by
  unfold encode pairs
  rw [map_flatMap]
  simp only [map_map]
  rfl

theorem valuesOf_pairs :
    valuesOf form name = ((pairs form).filter fun x => x.1 = name).map Prod.snd := by
  have hpick : ∀ keys : List String, keys.Nodup →
      ((keys.flatMap fun k => (valuesOf form k).map (k, ·)).filter
        fun x => x.1 = name).map Prod.snd = if name ∈ keys then valuesOf form name else [] := by
    intro keys hnodup
    induction keys with
    | nil => rfl
    | cons k keys ih =>
      rw [nodup_cons] at hnodup
      rw [flatMap_cons, filter_append, map_append, ih hnodup.2]
      by_cases hk : k = name
      · subst hk
        simp [hnodup.1, filter_map, Function.comp_def]
      · simp [hk, Ne.symm hk, filter_map, Function.comp_def]
  rw [pairs, flatMap_valuesOf Prod.mk, hpick _ (nodup_sortedKeys form)]
  split
  · rfl
  · rename_i hmem
    rw [valuesOf, Finmap.lookup_eq_none.mpr fun h => hmem (mem_sortedKeys.mpr h)]
    rfl

theorem pairs_inj {form' : Values} (h : Full form) (h' : Full form')
    (hpairs : pairs form = pairs form') : form = form' := by
  apply Finmap.ext_lookup
  intro name
  have hvalues : valuesOf form name = valuesOf form' name := by
    rw [valuesOf_pairs, valuesOf_pairs, hpairs]
  unfold valuesOf at hvalues
  cases hl : form.lookup name with
  | none =>
    cases hl' : form'.lookup name with
    | none => rfl
    | some values' =>
      rw [hl, hl'] at hvalues
      exact absurd hvalues.symm (h' name values' hl')
  | some values =>
    cases hl' : form'.lookup name with
    | none =>
      rw [hl, hl'] at hvalues
      exact absurd hvalues (h name values hl)
    | some values' =>
      rw [hl, hl'] at hvalues
      exact congrArg some hvalues

theorem joined_inj {ls ls' : List (List Char)} (h : ∀ l ∈ ls, '&' ∉ l ∧ l ≠ [])
    (h' : ∀ l ∈ ls', '&' ∉ l ∧ l ≠ []) (hjoin : ['&'].intercalate ls = ['&'].intercalate ls') :
    ls = ls' := by
  let read (s : List Char) : List (List Char) := if s = [] then [] else s.splitOn '&'
  have hread : ∀ ks : List (List Char), (∀ l ∈ ks, '&' ∉ l ∧ l ≠ []) →
      read (['&'].intercalate ks) = ks := by
    intro ks hks
    by_cases hne : ks = []
    · simp [hne, read]
    have hsplit := splitOn_intercalate '&' (fun l hl => (hks l hl).1) hne
    refine (if_neg fun hempty => ?_).trans hsplit
    rw [hempty] at hsplit
    exact (hks [] (hsplit ▸ mem_singleton_self _)).2 rfl
  rw [← hread ls h, hjoin, hread ls' h']

/-- There is a codec: each name is written as a number of strokes. -/
theorem exists_inverts : ∃ queryEscape parseQuery, Inverts queryEscape parseQuery := by
  have hchar : Countable Char := Function.Injective.countable fun _ _ h => Char.toNat_inj.mp h
  have hstring : Countable String := Function.Injective.countable
    fun _ _ h => String.toList_inj.mp h
  obtain ⟨code, hcode⟩ := exists_injective_nat String
  let strokes (s : String) : List Char := List.replicate (code s) 'x'
  let queryEscape (s : String) : String := String.ofList (strokes s)
  let write (x : String × String) : List Char := strokes x.1 ++ '=' :: strokes x.2
  have hwrite : Function.Injective write := by
    intro x y hxy
    have hfirst := congrArg (fun l => (l.takeWhile fun c => c = 'x').length) hxy
    have hlast := congrArg List.length hxy
    simp only [write, strokes, takeWhile_append, takeWhile_replicate, decide_true,
      if_true, takeWhile_cons] at hfirst
    simp [write, strokes] at hfirst hlast
    exact Prod.ext (hcode hfirst) (hcode (by omega))
  have hclean : ∀ form, ∀ l ∈ (pairs form).map write, '&' ∉ l ∧ l ≠ [] := by
    intro form l hl
    obtain ⟨x, -, rfl⟩ := mem_map.mp hl
    simp [write, strokes]
  have hencode : ∀ form, (encode queryEscape form).toList =
      ['&'].intercalate ((pairs form).map write) := by
    intro form
    rw [encode_eq, String.toList_intercalate, map_map]
    congr 1
    refine map_congr_left fun x _ => ?_
    simp [write, queryEscape]
  have hinj : Set.InjOn (encode queryEscape) {form | Full form} := by
    intro form h form' h' heq
    have hlists := congrArg String.toList heq
    rw [hencode, hencode] at hlists
    exact pairs_inj h h' (map_injective_iff.mpr hwrite
      (joined_inj (hclean form) (hclean form') hlists))
  exact ⟨queryEscape, fun s => .ok (Function.invFunOn (encode queryEscape) {form | Full form} s),
    fun form h => congrArg Except.ok (hinj.leftInvOn_invFunOn h)⟩

theorem hub_and_spoke_agree_on_an_alerts_call :
    ∃ (L : promproxy.Lib) (parseQuery : String → Except String Values) (route : Route),
      Inverts L.queryEscape parseQuery ∧
      lookup L.api routes "get" "/api/v1/alerts" = some (route, "") ∧
      ∃ form, admitted L.api parseQuery routes ascending false
          (some (Proxy.request L route "/api/v1/alerts" (callTo "east" .alerts ∅) 4)) =
            .ok (route, "", form) := by
  obtain ⟨queryEscape, parseQuery, hparse⟩ := exists_inverts
  let L : promproxy.Lib := { api := smallLib.api, queryEscape := queryEscape }
  obtain ⟨hlookup, -, hagree⟩ := hub_and_spoke_agree_on_the_allow_list L parseQuery hparse
  let hub : Hub Unit := ⟨⟨10, 10, [], []⟩, ∅⟩
  obtain ⟨route, evs, hroute, hpath⟩ : ∃ route evs,
      (route ∈ routes ∧ buildPath smallLib.api route.endpoint "" = .ok "/api/v1/alerts" ∧
        equalFold route.method "get" = true) ∧
      Path (machine Unit smallProxy) () (smallProxy.authorizeAndBuild L
        (some (callerOf ["east"])) (callTo "east" .alerts ∅)) hub evs
        (.done (.ok (route, "/api/v1/alerts"))) hub :=
    ⟨{ endpoint := .alerts, method := "GET", pathTemplate := "/api/v1/alerts" }, _,
      by decide +kernel, Path.op (e := calm eastReg) (Others.refl _) rfl
        (Path.op (e := calm eastReg) (Others.refl _) rfl (Path.rest (Others.refl _)))⟩
  refine ⟨L, parseQuery, route, hparse,
    (hlookup routes (List.Perm.refl _) "get" "/api/v1/alerts" route "").mpr hroute, ?_⟩
  obtain ⟨form, hadmitted, -⟩ := hagree Unit smallProxy () (some (callerOf ["east"]))
    (callTo "east" .alerts ∅) hub hub evs route _ 4 routes ascending (List.Perm.refl _) hpath
  exact ⟨form, hadmitted⟩

/-- The method of a request may be spelled with the long s, which is no ASCII letter. -/
theorem a_long_s_folds_to_an_ascii_method : ∃ (route : Route) (method : String),
      lookup smallLib.api routes method "/api/v1/query" = some (route, "") ∧
      method.toList.map Char.toLower ≠ route.method.toList.map Char.toLower := by
  have hfound : (lookup smallLib.api routes "PO\u017fT" "/api/v1/query").map
      (fun x => (x.1.method, x.2)) = some ("POST", "") := by decide +kernel
  obtain ⟨⟨route, labelName⟩, hlookup, hx⟩ := Option.map_eq_some_iff.mp hfound
  obtain ⟨hmethod, rfl⟩ := Prod.mk.inj hx
  refine ⟨route, "PO\u017fT", hlookup, ?_⟩
  rw [show route.method = "POST" from hmethod]
  decide

end prom_fleet.promclient
