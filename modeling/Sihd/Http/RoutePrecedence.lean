import Mathlib.Data.Prod.Lex
import Sihd.Http.RouteAlignment
import Sihd.Lib.StableSort

/-!
# Which route a path goes to

A path goes to the matching route with the least key, the first of those that
were added. Registrations in another order give every path the same route when
the routes have different keys.
-/

namespace Sihd.Http

open OrderDual

variable {Handler : Type}

/-- No catch-all first, then more literal segments. -/
def Route.paramsKey (r : Route Handler) : Bool ×ₗ Natᵒᵈ :=
  toLex (r.hasCatchAll, toDual r.specificity)

/-- No parameters first, then no catch-all, then more literal segments. -/
def Route.key (r : Route Handler) : Bool ×ₗ Bool ×ₗ Natᵒᵈ := toLex (r.hasParams, r.paramsKey)

/-- The arguments of `add`. -/
structure Registration (Handler : Type) where
  pattern : List UInt8
  handler : Handler
  method : RequestType

/-- The routes of a method, in the order in which they were added. -/
def registeredRoutes (registrations : List (Registration Handler)) (method : RequestType) :
    List (Route Handler) :=
  (registrations.filter fun registration => registration.method = method).map fun registration =>
    ⟨registration.pattern, registration.handler⟩

namespace RouteTable

def addAll (t : RouteTable Handler) (registrations : List (Registration Handler)) :
    RouteTable Handler :=
  registrations.foldl (fun t registration =>
    t.add registration.pattern registration.handler registration.method) t

theorem routes_addAll (t : RouteTable Handler) (registrations : List (Registration Handler))
    (method : RequestType) : ((t.addAll registrations).routes method).getD [] =
      (t.routes method).getD [] ++ registeredRoutes registrations method := by
  induction registrations generalizing t with
  | nil => simp [addAll, registeredRoutes]
  | cons registration registrations ih =>
    change (((t.add _ _ _).addAll registrations).routes method).getD [] = _
    rw [ih, add]
    by_cases h : registration.method = method
    · simp [h, registeredRoutes]
    · simp [h, registeredRoutes, Function.update_of_ne (Ne.symm h)]

/-- A table without the method finds nothing, as one with no route of it does. -/
theorem find_eq_findBy (t : RouteTable Handler) (method : RequestType) (path : List UInt8) :
    t.find method path =
      findBy (fun r => r.matchPath (normalizePath path)) ((t.routes method).getD []) := by
  rw [find]
  cases t.routes method with
  | none => simp [findBy, firstMatch]
  | some routes => rfl

end RouteTable

/-! ### The keys -/

theorem Route.before_eq (a b : Route Handler) :
    (!b.before a) = decide (a.paramsKey ≤ b.paramsKey) := by
  rw [Bool.eq_iff_iff, decide_eq_true_iff, paramsKey, paramsKey, Prod.Lex.le_iff, before]
  dsimp only [ofLex_toLex]
  cases a.hasCatchAll <;> cases b.hasCatchAll <;> simp

theorem Route.key_lt_key {a b : Route Handler} (h : a.hasParams = b.hasParams) :
    a.key < b.key ↔ a.paramsKey < b.paramsKey := by
  simp [key, Prod.Lex.lt_iff, h]

theorem Route.key_le_key {a b : Route Handler} (h : a.hasParams = b.hasParams) :
    a.key ≤ b.key ↔ a.paramsKey ≤ b.paramsKey := by
  simp [key, Prod.Lex.le_iff, h]

theorem Route.hasCatchAll_of_hasParams {r : Route Handler} (h : r.hasParams = false) :
    r.hasCatchAll = false := by
  cases hcatchAll : r.hasCatchAll with
  | false => rfl
  | true =>
    obtain ⟨before, name, after, hsegments, -⟩ := exists_first_catchAll hcatchAll
    simp [hasParams, hsegments] at h

/-- A route without parameters that matches has as many literal segments as the path has. -/
theorem Route.key_of_isSome {r : Route Handler} {path : List UInt8} (h : r.hasParams = false)
    (hmatch : (r.matchPath path).isSome = true) :
    r.key = toLex (false, toLex (false, toDual (decodedSegments path).length)) := by
  have hcatchAll := hasCatchAll_of_hasParams h
  have hspecificity : r.specificity = r.segments.length := by
    rw [specificity, List.countP_eq_length]
    simpa [hasParams] using h
  have hlength : (decodedSegments path).length = r.segments.length := by
    obtain ⟨p, hp⟩ := Option.isSome_iff_exists.mp hmatch
    rw [matchPath_eq, matchSegments, Option.ite_none_right_eq_some, fits, hcatchAll] at hp
    simpa using hp.1
  rw [key, paramsKey, h, hcatchAll, hspecificity, hlength]

/-! ### The selection -/

namespace RouteTable

/-- The route that is found. -/
def select (matches? : Route Handler → Bool) (routes : List (Route Handler)) :
    Option (Route Handler) :=
  ((routes.filter fun r => !r.hasParams).find? matches?).or
    (((routes.filter Route.hasParams).mergeSort fun a b => !b.before a).find? matches?)

theorem firstMatch_eq (matchRoute : Route Handler → RouteMatch) (routes : List (Route Handler)) :
    firstMatch matchRoute routes = (routes.find? fun r => (matchRoute r).isSome).bind fun r =>
      (matchRoute r).map fun params => ⟨r.handler, params⟩ := by
  induction routes with
  | nil => rfl
  | cons r routes ih =>
    rw [firstMatch] at ih ⊢
    rw [List.findSome?_cons, List.find?_cons]
    cases h : matchRoute r with
    | none => exact ih
    | some params => simp [h]

theorem findBy_eq (matchRoute : Route Handler → RouteMatch) (routes : List (Route Handler)) :
    findBy matchRoute routes = (select (fun r => (matchRoute r).isSome) routes).bind fun r =>
      (matchRoute r).map fun params => ⟨r.handler, params⟩ := by
  rw [findBy, firstMatch_eq, firstMatch_eq, select]
  cases h : (routes.filter fun r => !r.hasParams).find? fun r => (matchRoute r).isSome with
  | none => rfl
  | some r =>
    have hmatch := List.find?_some h
    obtain ⟨params, hparams⟩ := Option.isSome_iff_exists.mp hmatch
    simp [hparams]

theorem select_eq_none_iff {matches? : Route Handler → Bool} {routes : List (Route Handler)} :
    select matches? routes = none ↔ ∀ r ∈ routes, matches? r = false := by
  simp only [select, Option.or_eq_none_iff, List.find?_eq_none, List.mem_mergeSort,
    List.mem_filter]
  constructor
  · rintro ⟨hexact, hparams⟩ r hr
    cases h : r.hasParams with
    | false => simpa using hexact r ⟨hr, by simp [h]⟩
    | true => simpa using hparams r ⟨hr, h⟩
  · exact fun h => ⟨fun r hr => by simp [h r hr.1], fun r hr => by simp [h r hr.1]⟩

/-- Both passes of `find` together go to the first route with the least key. -/
theorem isFirstLeast_of_select {path : List UInt8} {routes : List (Route Handler)}
    {r : Route Handler} (h : select (fun r => (r.matchPath path).isSome) routes = some r) :
    IsFirstLeast Route.key (fun r => (r.matchPath path).isSome = true) routes r := by
  rw [select, List.find?_filter] at h
  cases hexact : routes.find? fun r =>
      decide ((!r.hasParams) = true ∧ (r.matchPath path).isSome = true) with
  | some r' =>
    rw [hexact, Option.some_or, Option.some_inj] at h
    subst h
    obtain ⟨hr, before, after, rfl, hbefore⟩ := List.find?_eq_some_iff_append.mp hexact
    simp only [decide_eq_true_iff, Bool.not_eq_true'] at hr hbefore
    -- a route with parameters has a greater key
    have hlt : ∀ s : Route Handler, s.hasParams = true → r'.key < s.key := by
      intro s hs
      simp [Route.key, Prod.Lex.lt_iff, hr.1, hs]
    refine ⟨before, after, rfl, hr.2, fun s hs hmatch => ?_, fun s hs hmatch => ?_⟩
    · cases hparams : s.hasParams with
      | false => simpa [hparams, hmatch] using hbefore s hs
      | true => exact hlt s hparams
    · cases hparams : s.hasParams with
      | false => rw [Route.key_of_isSome hr.1 hr.2, Route.key_of_isSome hparams hmatch]
      | true => exact (hlt s hparams).le
  | none =>
    rw [hexact, Option.none_or] at h
    simp only [Route.before_eq] at h
    have hfirst := (isFirstLeast_of_find?_mergeSort h).of_filter
    have hr := hfirst.holds.1
    refine hfirst.of_keys (fun s hs => ?_) (fun s hs => ?_) fun s hs => ?_
    · refine ⟨fun hmatch => ⟨?_, hmatch⟩, fun hmatch => hmatch.2⟩
      simpa [hmatch] using List.find?_eq_none.mp hexact s hs
    · exact (Route.key_lt_key (hr.trans hs.1.symm)).mpr
    · exact (Route.key_le_key (hr.trans hs.1.symm)).mpr

theorem select_eq_some_iff {path : List UInt8} {routes : List (Route Handler)}
    {r : Route Handler} : select (fun r => (r.matchPath path).isSome) routes = some r ↔
      IsFirstLeast Route.key (fun r => (r.matchPath path).isSome = true) routes r := by
  refine ⟨isFirstLeast_of_select, fun h => ?_⟩
  cases hselect : select (fun r => (r.matchPath path).isSome) routes with
  | none => simpa [h.holds] using select_eq_none_iff.mp hselect r h.mem
  | some r' => rw [(isFirstLeast_of_select hselect).eq h]

/-- A path goes to the first of the matching routes with the least key, if a route matches. -/
theorem findBy_eq_some_iff {path : List UInt8} {routes : List (Route Handler)}
    {result : FindResult Handler} :
    findBy (fun r => r.matchPath path) routes = some result ↔
      ∃ r, IsFirstLeast Route.key (fun r => (r.matchPath path).isSome = true) routes r ∧
        r.handler = result.handler ∧ r.matchPath path = some result.params := by
  rw [findBy_eq, Option.bind_eq_some_iff]
  refine exists_congr fun r => ?_
  rw [select_eq_some_iff, Option.map_eq_some_iff]
  refine and_congr_right fun _ => ⟨?_, ?_⟩
  · rintro ⟨params, hparams, rfl⟩
    exact ⟨rfl, hparams⟩
  · rintro ⟨hhandler, hparams⟩
    exact ⟨result.params, hparams, by rw [hhandler]⟩

theorem findBy_eq_none_iff {path : List UInt8} {routes : List (Route Handler)} :
    findBy (fun r => r.matchPath path) routes = none ↔
      ∀ r ∈ routes, r.matchPath path = none := by
  rw [findBy_eq, Option.bind_eq_none_iff]
  constructor
  · intro h r hr
    cases hselect : select (fun r => (r.matchPath path).isSome) routes with
    | none => simpa using select_eq_none_iff.mp hselect r hr
    | some r' =>
      have hmatch := (isFirstLeast_of_select hselect).holds
      rw [Option.map_eq_none_iff.mp (h r' hselect)] at hmatch
      cases hmatch
  · intro h r hselect
    rw [h r (select_eq_some_iff.mp hselect).mem, Option.map_none]

theorem findBy_perm {path : List UInt8} {routes routes' : List (Route Handler)}
    (hperm : routes.Perm routes') (hkeys : routes.Pairwise fun a b => a.key ≠ b.key) :
    findBy (fun r => r.matchPath path) routes' = findBy (fun r => r.matchPath path) routes := by
  cases hfind : findBy (fun r => r.matchPath path) routes with
  | none =>
    rw [findBy_eq_none_iff] at hfind ⊢
    exact fun r hr => hfind r (hperm.mem_iff.mpr hr)
  | some result =>
    rw [findBy_eq_some_iff] at hfind ⊢
    obtain ⟨r, hr, hresult⟩ := hfind
    exact ⟨r, hr.of_perm hperm hkeys, hresult⟩

/-- The routes are selected by their keys, and in the order of their registrations when these are
the same. -/
theorem find_addAll (registrations : List (Registration Handler)) (method : RequestType)
    (path : List UInt8) :
    ((empty.addAll registrations).find method path = none ↔
        ∀ r ∈ registeredRoutes registrations method,
          r.matchPath (normalizePath path) = none) ∧
      (∀ result, (empty.addAll registrations).find method path = some result ↔
        ∃ before r after, registeredRoutes registrations method = before ++ r :: after ∧
          r.handler = result.handler ∧
          r.matchPath (normalizePath path) = some result.params ∧
          (∀ s ∈ before, (s.matchPath (normalizePath path)).isSome → r.key < s.key) ∧
          ∀ s ∈ after, (s.matchPath (normalizePath path)).isSome → r.key ≤ s.key) ∧
      ∀ registrations', registrations.Perm registrations' →
        (registeredRoutes registrations method).Pairwise (fun a b => a.key ≠ b.key) →
        (empty.addAll registrations').find method path =
          (empty.addAll registrations).find method path := by
  have hfind : ∀ registrations : List (Registration Handler),
      (empty.addAll registrations).find method path =
        findBy (fun r => r.matchPath (normalizePath path))
          (registeredRoutes registrations method) := by
    intro registrations
    rw [find_eq_findBy, routes_addAll]
    rfl
  rw [hfind registrations]
  refine ⟨findBy_eq_none_iff, fun result => ?_, fun registrations' hperm hkeys => ?_⟩
  · rw [findBy_eq_some_iff]
    constructor
    · rintro ⟨r, ⟨before, after, hroutes, -, hbefore, hafter⟩, hhandler, hparams⟩
      exact ⟨before, r, after, hroutes, hhandler, hparams, hbefore, hafter⟩
    · rintro ⟨before, r, after, hroutes, hhandler, hparams, hbefore, hafter⟩
      exact ⟨r, ⟨before, after, hroutes, Option.isSome_iff_exists.mpr ⟨_, hparams⟩, hbefore,
        hafter⟩, hhandler, hparams⟩
  · rw [hfind registrations']
    exact findBy_perm ((hperm.filter _).map _) hkeys

end RouteTable

end Sihd.Http
