import Mathlib.Data.List.TakeWhile
import Sihd.Lib.Cut
import Sihd.Lib.OrderedMap
import Sihd.Lib.UnorderedMap
import Sihd.Util.Str.Affixes

/-!
# The environment of a process

A process object holds the environment of its next child as a vector of
`key=value` strings, in which a key is found by comparing its characters and a `=`
with the start of every entry. What is in memory behind the final zero of an entry
is `behind`.
-/

namespace Sihd.Sys

open Util Str

namespace Environment

/-- `"="` -/
def equals : UInt8 := 61

def splitPairView (s : List UInt8) : List UInt8 × List UInt8 :=
  (cut equals s).getD ([], [])

section

variable (behind : List UInt8 → List UInt8)

def isEntryOf (key env : List UInt8) : Bool :=
  startsWith env (0 :: behind env) key [equals]

def getInEnv (env : List (List UInt8)) (key : List UInt8) : Option Nat :=
  env.findIdx? (isEntryOf behind key)

/-- The turn of the loop of `env_load_impl` for one entry. -/
def loadEntry (environment : List (List UInt8)) (env : List UInt8) : List (List UInt8) :=
  let key := (splitPairView env).1
  if key.isEmpty then environment
  else
    let environment := match getInEnv behind environment key with
      | some it => environment.eraseIdx it
      | none => environment
    environment ++ [env]

def envLoad (environment toLoad : List (List UInt8)) : List (List UInt8) :=
  toLoad.foldl (loadEntry behind) environment

def keyval (key value : List UInt8) : List UInt8 := key ++ equals :: value

def envSet (key value : List UInt8) : List (List UInt8) → List (List UInt8)
  | [] => [keyval key value]
  | env :: environment =>
      if isEntryOf behind key env then keyval key value :: environment
      else env :: envSet key value environment

def envGet (environment : List (List UInt8)) (key : List UInt8) : Option (List UInt8) :=
  (getInEnv behind environment key).bind fun it =>
    environment[it]?.map fun env => (splitPairView env).2

/-- The iterator is compared with the end of the vector after the removal. -/
def envRm (environment : List (List UInt8)) (key : List UInt8) : Bool × List (List UInt8) :=
  match getInEnv behind environment key with
  | some it =>
      let environment := environment.eraseIdx it
      (it ≠ environment.length, environment)
  | none => (false, environment)

end

/-- What the program of the child finds: every entry up to its first zero. -/
def childEnviron (environment : List (List UInt8)) : List (List UInt8) :=
  environment.map cString

/-! ## Runs -/

/-- A key of the environment. -/
abbrev Key := { k : List UInt8 // k ≠ [] ∧ equals ∉ k }

inductive Call where
  | load (toLoad : List (List UInt8))
  | set (key : Key) (value : List UInt8)
  | get (key : Key)
  | rm (key : Key)

inductive Answer where
  | done
  | value (value : Option (List UInt8))
  | removed (present : Bool)
  deriving DecidableEq

def call (behind : List UInt8 → List UInt8) (environment : List (List UInt8)) :
    Call → Answer × List (List UInt8)
  | .load toLoad => (.done, envLoad behind environment toLoad)
  | .set key value => (.done, envSet behind key value environment)
  | .get key => (.value (envGet behind environment key), environment)
  | .rm key =>
      let (present, environment) := envRm behind environment key
      (.removed present, environment)

/-- What is written last for every key and not removed since. -/
abbrev Written := List UInt8 → Option (List UInt8)

namespace Written

/-- An entry gives its value to what is before its first `=`, if that is a key. -/
def loadEntry (w : Written) (env : List UInt8) : Written :=
  if (splitPairView env).1 = [] then w
  else Function.update w (splitPairView env).1 (some (splitPairView env).2)

def after (w : Written) : Call → Written
  | .load toLoad => toLoad.foldl loadEntry w
  | .set key value => Function.update w key (some value)
  | .get _ => w
  | .rm key => Function.update w key none

def answer (w : Written) : Call → Answer
  | .load _ => .done
  | .set _ _ => .done
  | .get key => .value (w key)
  | .rm key => .removed (w key).isSome

end Written

/-- Every key has what was written for it, and the child has one entry for every
key that has a value and no other entry. -/
structure Agrees (behind : List UInt8 → List UInt8) (environment : List (List UInt8))
    (w : Written) : Prop where
  get (key : Key) : envGet behind environment key = w key
  child (key : Key) : (childEnviron environment).filter (fun env => (splitPairView env).1 = key) =
    (w key).toList.map fun value => keyval key (cString value)
  keyed : ∀ env ∈ childEnviron environment, (splitPairView env).1 ≠ []

/-- The environment is a map in every state of a run, and every answer is that of
the map. -/
def MapLike (behind : List UInt8 → List UInt8) (environment : List (List UInt8))
    (w : Written) : List Call → Prop
  | [] => Agrees behind environment w
  | c :: calls =>
      Agrees behind environment w ∧ (call behind environment c).1 = w.answer c ∧
        MapLike behind (call behind environment c).2 (w.after c) calls

/-- A call that gives no key with a zero and removes no key from the end of the
vector. -/
def Clean (environment : List (List UInt8)) : Call → Prop
  | .load toLoad => ∀ env ∈ toLoad, 0 ∉ (splitPairView env).1
  | .set key _ => 0 ∉ key.1
  | .get _ => True
  | .rm key => ∀ value, environment.getLast? ≠ some (keyval key value)

def CleanRun (behind : List UInt8 → List UInt8) (environment : List (List UInt8)) :
    List Call → Prop
  | [] => True
  | c :: calls =>
      Clean environment c ∧ CleanRun behind (call behind environment c).2 calls

variable {behind : List UInt8 → List UInt8} {key value env : List UInt8}
  {environment : List (List UInt8)}

/-! ## Entries -/

theorem splitPairView_keyval (h : equals ∉ key) (value : List UInt8) :
    splitPairView (keyval key value) = (key, value) := by
  rw [splitPairView, keyval, cut_append_cons h, Option.getD_some]

theorem not_mem_splitPairView (env : List UInt8) : equals ∉ (splitPairView env).1 := by
  rw [splitPairView]
  cases hcut : cut equals env with
  | none => simp
  | some p => exact (cut_eq_some_iff.mp hcut).1

theorem eq_keyval (h : (splitPairView env).1 ≠ []) :
    env = keyval (splitPairView env).1 (splitPairView env).2 := by
  rw [splitPairView] at h ⊢
  cases hcut : cut equals env with
  | none => simp [hcut] at h
  | some p => exact (cut_eq_some_iff.mp hcut).2

/-- A key with no zero is compared to its `=` at least. -/
theorem isPrefix_of_strncmpEqual {k : List UInt8} (hzero : 0 ∉ key) (hk : equals ∉ k)
    {r : List UInt8} (h : strncmpEqual (key ++ equals :: r) k = true) : k <+: key := by
  induction k generalizing key with
  | nil => exact List.nil_prefix
  | cons c k ih =>
    rw [List.mem_cons, not_or] at hk
    cases key with
    | nil => simp [strncmpEqual, hk.1] at h
    | cons a key =>
      rw [List.mem_cons, not_or] at hzero
      simp only [strncmpEqual, List.cons_append, List.headD_cons, List.tail_cons,
        Bool.and_eq_true, Bool.or_eq_true, beq_iff_eq] at h
      obtain ⟨rfl, h⟩ := h
      have hprefix := ih hzero.2 hk.2 (h.resolve_left (Ne.symm hzero.1))
      exact (List.prefix_cons_inj a).mpr hprefix

/-- The comparison finds the entries of a key and no others. -/
theorem isEntryOf_keyval {k : List UInt8} (hkey : equals ∉ key) (hzero : 0 ∉ key)
    (hk : equals ∉ k) (value : List UInt8) :
    isEntryOf behind k (keyval key value) = decide (key = k) := by
  rw [Bool.eq_iff_iff, isEntryOf, startsWith_eq_true_iff, decide_eq_true_iff, keyval,
    List.append_assoc, List.cons_append]
  constructor
  · rintro ⟨-, hstart, hequals⟩
    obtain ⟨t, rfl⟩ := isPrefix_of_strncmpEqual hzero hk hstart
    rw [List.append_assoc, List.drop_left] at hequals
    cases t with
    | nil => rw [List.append_nil]
    | cons a t =>
      have ha : a = equals := by simpa [strncmpEqual] using hequals
      simp [ha] at hkey
  · rintro rfl
    refine ⟨by simp; omega, strncmpEqual_of_isPrefix (List.prefix_append _ _), ?_⟩
    rw [List.drop_left]
    exact strncmpEqual_of_isPrefix (by simp)

/-! ## The vector and its map -/

/-- The entries of a map. -/
def render (m : UnorderedMap (List UInt8) (List UInt8)) : List (List UInt8) :=
  m.entries.map fun e => keyval e.1 e.2

/-- The keys are keys, and have no zero. -/
def Plain (l : List (List UInt8 × List UInt8)) : Prop :=
  ∀ e ∈ l, e.1 ≠ [] ∧ equals ∉ e.1 ∧ 0 ∉ e.1

variable {m : UnorderedMap (List UInt8) (List UInt8)}

theorem isEntryOf_comp {l : List (List UInt8 × List UInt8)} (h : Plain l) (hk : equals ∉ key)
    {e : List UInt8 × List UInt8} (he : e ∈ l) :
    isEntryOf behind key (keyval e.1 e.2) = decide (e.1 = key) :=
  isEntryOf_keyval (h e he).2.1 (h e he).2.2 hk e.2

theorem getInEnv_map {l : List (List UInt8 × List UInt8)} (h : Plain l) (hk : equals ∉ key) :
    getInEnv behind (l.map fun e => keyval e.1 e.2) key =
      l.findIdx? fun e => e.1 = key := by
  rw [getInEnv, List.findIdx?_map]
  induction l with
  | nil => rfl
  | cons e l ih =>
    have hl : Plain l := fun e' he' => h e' (List.mem_cons_of_mem e he')
    rw [List.findIdx?_cons, List.findIdx?_cons, ih hl, Function.comp_apply,
      isEntryOf_comp h hk List.mem_cons_self]

/-- A removal by the position found. -/
theorem eraseIdx_getInEnv (h : Plain m.entries) (hk : equals ∉ key) :
    (match getInEnv behind (render m) key with
      | some it => (render m).eraseIdx it
      | none => render m) = render (m.erase key) := by
  rw [render, getInEnv_map h hk, render, m.entries_erase, List.eraseP_eq_eraseIdx]
  cases m.entries.findIdx? fun e => e.1 = key with
  | none => rfl
  | some it => simp [List.eraseIdx_map]

/-- The first entry of a key is its only one. -/
theorem envSet_map {l : List (List UInt8 × List UInt8)} (h : Plain l)
    (hnodup : (l.map Prod.fst).Nodup) (hk : equals ∉ key) (value : List UInt8) :
    envSet behind key value (l.map fun e => keyval e.1 e.2) =
      (if key ∈ l.map Prod.fst then UnorderedMap.replaceEntries key value l
        else l ++ [(key, value)]).map fun e => keyval e.1 e.2 := by
  induction l with
  | nil => simp [envSet]
  | cons e l ih =>
    have hl : Plain l := fun e' he' => h e' (List.mem_cons_of_mem e he')
    rw [List.map_cons, List.nodup_cons] at hnodup
    rw [List.map_cons, envSet, isEntryOf_comp h hk List.mem_cons_self, ih hl hnodup.2,
      UnorderedMap.replaceEntries_cons]
    by_cases he : e.1 = key
    · subst he
      simp [UnorderedMap.replaceEntries_of_notMem hnodup.1]
    · by_cases hmem : key ∈ l.map Prod.fst
      · simp [he, hmem]
      · simp [he, Ne.symm he, hmem]

theorem envSet_render (h : Plain m.entries) (hk : equals ∉ key) (value : List UInt8) :
    envSet behind key value (render m) = render (m.assign key value) := by
  rw [render, envSet_map h m.nodup hk, render]
  split
  · rename_i hmem
    rw [UnorderedMap.entries_assign_of_mem hmem]
  · rename_i hmem
    rw [UnorderedMap.entries_assign hmem]

theorem loadEntry_render (h : Plain m.entries) (env : List UInt8) :
    loadEntry behind (render m) env =
      render (if (splitPairView env).1 = [] then m
        else (m.erase (splitPairView env).1).emplace (splitPairView env).1
          (splitPairView env).2) := by
  rw [loadEntry]
  by_cases hkey : (splitPairView env).1 = []
  · simp [hkey]
  · have hnone := UnorderedMap.find_erase_self m (splitPairView env).1
    simp only [List.isEmpty_iff, if_neg hkey]
    rw [eraseIdx_getInEnv h (not_mem_splitPairView env), render, render,
      UnorderedMap.entries_emplace (UnorderedMap.find_eq_none_iff.mp hnone), List.map_append,
      List.map_cons, ← eq_keyval hkey, List.map_nil]

theorem envGet_render (h : Plain m.entries) (hk : equals ∉ key) :
    envGet behind (render m) key = m.find key := by
  rw [envGet, render, getInEnv_map h hk, UnorderedMap.find, List.find?_eq_bind_findIdx?_getElem?,
    Option.map_bind]
  refine Option.bind_congr fun it _ => ?_
  rw [List.getElem?_map, Option.map_map, Function.comp_apply]
  refine Option.map_congr fun e he => ?_
  rw [Function.comp_apply, splitPairView_keyval (h e (List.mem_of_getElem? he)).2.1]

theorem cString_keyval (hzero : 0 ∉ key) (value : List UInt8) :
    cString (keyval key value) = keyval key (cString value) := by
  rw [cString, cString, keyval, keyval, List.takeWhile_append_of_pos, List.takeWhile_cons_of_pos]
  · decide
  · intro c hc
    have hne : c ≠ 0 := fun heq => hzero (heq ▸ hc)
    simpa using hne

theorem childEnviron_render (h : Plain m.entries) :
    childEnviron (render m) = m.entries.map fun e => keyval e.1 (cString e.2) := by
  rw [childEnviron, render, List.map_map]
  refine List.map_congr_left fun e he => ?_
  exact cString_keyval (h e he).2.2 e.2

/-! ## The run -/

/-- A vector, its map and what is written. -/
structure Holds (m : UnorderedMap (List UInt8) (List UInt8)) (environment : List (List UInt8))
    (w : Written) : Prop where
  plain : Plain m.entries
  rendered : environment = render m
  find (k : List UInt8) : m.find k = w k

variable {w : Written}

theorem Holds.agrees (h : Holds m environment w) : Agrees behind environment w := by
  obtain ⟨hplain, rfl, hfind⟩ := h
  refine ⟨fun k => ?_, fun k => ?_, ?_⟩
  · rw [envGet_render hplain k.2.2, hfind]
  · have hkeys : m.entries.filter ((fun env => decide ((splitPairView env).1 = k.1)) ∘
        fun e => keyval e.1 (cString e.2)) = m.entries.filter fun e => e.1 = k.1 := by
      refine List.filter_congr fun e he => ?_
      rw [Function.comp_apply, splitPairView_keyval (hplain e he).2.1]
    rw [childEnviron_render hplain, List.filter_map, hkeys, m.filter_entries, hfind,
      List.map_map, Function.comp_def]
  · intro env henv
    rw [childEnviron_render hplain, List.mem_map] at henv
    obtain ⟨e, he, rfl⟩ := henv
    rw [splitPairView_keyval (hplain e he).2.1]
    exact (hplain e he).1

/-- A key with a zero never reaches the child. -/
theorem Agrees.zero_notMem (h : Agrees behind environment w) {k : Key} (hk : (w k).isSome) :
    0 ∉ k.1 := by
  intro hzero
  obtain ⟨value, hvalue⟩ := Option.isSome_iff_exists.mp hk
  have hmem : keyval k (cString value) ∈
      (childEnviron environment).filter fun env => (splitPairView env).1 = k := by
    rw [h.child k, hvalue]
    exact List.mem_singleton_self _
  obtain ⟨env, -, henv⟩ := List.mem_map.mp (List.mem_filter.mp hmem).1
  have hmem : (0 : UInt8) ∈ cString env := henv ▸ List.mem_append_left _ hzero
  simpa using List.mem_takeWhile_imp hmem

theorem Holds.assign (h : Holds m environment w) (k : Key) (hzero : 0 ∉ k.1)
    (value : List UInt8) :
    Holds (m.assign k value) (envSet behind k value environment)
      (Function.update w k (some value)) where
  plain := by
    intro e he
    rcases UnorderedMap.mem_assign he with he | rfl
    · exact h.plain e he
    · exact ⟨k.2.1, k.2.2, hzero⟩
  rendered := by rw [h.rendered, envSet_render h.plain k.2.2]
  find k' := by
    by_cases hk : k' = k
    · subst hk
      rw [UnorderedMap.find_assign_self, Function.update_self]
    · rw [UnorderedMap.find_assign_of_ne m hk, Function.update_of_ne hk, h.find]

theorem Holds.erase (h : Holds m environment w) (k : List UInt8) :
    Holds (m.erase k) (render (m.erase k)) (Function.update w k none) where
  plain e he := h.plain e (List.mem_filter.mp he).1
  rendered := rfl
  find k' := by
    by_cases hk : k' = k
    · subst hk
      rw [UnorderedMap.find_erase_self, Function.update_self]
    · rw [UnorderedMap.find_erase_of_ne m hk, Function.update_of_ne hk, h.find]

/-- The map after one loaded entry. -/
theorem Holds.loadEntry (h : Holds m environment w) (env : List UInt8)
    (hzero : 0 ∉ (splitPairView env).1) :
    ∃ m', Holds m' (Environment.loadEntry behind environment env) (w.loadEntry env) := by
  rw [h.rendered, loadEntry_render h.plain, Written.loadEntry]
  split
  · exact ⟨m, h.plain, rfl, h.find⟩
  · rename_i hkey
    have herase := h.erase (splitPairView env).1
    refine ⟨_, ?_, rfl, fun k => ?_⟩
    · intro e he
      rcases UnorderedMap.mem_emplace he with he | rfl
      · exact herase.plain e he
      · exact ⟨hkey, not_mem_splitPairView env, hzero⟩
    · rw [UnorderedMap.find_emplace, UnorderedMap.find_erase_self, Option.getD_none]
      split
      · rename_i hk
        rw [hk, Function.update_self]
      · rename_i hk
        rw [UnorderedMap.find_erase_of_ne m hk, Function.update_of_ne hk, h.find]

theorem Holds.load {toLoad : List (List UInt8)} (h : Holds m environment w)
    (hzero : ∀ env ∈ toLoad, 0 ∉ (splitPairView env).1) :
    ∃ m', Holds m' (envLoad behind environment toLoad) (toLoad.foldl Written.loadEntry w) := by
  induction toLoad generalizing m environment w with
  | nil => exact ⟨m, h⟩
  | cons env toLoad ih =>
    rw [List.forall_mem_cons] at hzero
    obtain ⟨m', hload⟩ := h.loadEntry env hzero.1
    exact ih hload hzero.2

/-- What a load wrote is still there when the load is over. -/
theorem isSome_foldl_loadEntry {toLoad : List (List UInt8)} {k : List UInt8}
    (h : (w k).isSome ∨ ∃ env ∈ toLoad, (splitPairView env).1 ≠ [] ∧ (splitPairView env).1 = k) :
    (toLoad.foldl Written.loadEntry w k).isSome := by
  induction toLoad generalizing w with
  | nil => simpa using h
  | cons env toLoad ih =>
    refine ih ?_
    by_cases hhere : (splitPairView env).1 ≠ [] ∧ (splitPairView env).1 = k
    · obtain ⟨hne, rfl⟩ := hhere
      simp [Written.loadEntry, hne]
    · rcases h with h | ⟨env', hmem, hkey⟩
      · refine .inl ?_
        rw [Written.loadEntry]
        split
        · exact h
        · rename_i hne
          have hother : k ≠ (splitPairView env).1 := fun heq => hhere ⟨hne, heq.symm⟩
          rwa [Function.update_of_ne hother]
      · rcases List.mem_cons.mp hmem with rfl | hmem
        · exact absurd hkey hhere
        · exact .inr ⟨env', hmem, hkey⟩

theorem Holds.rm (h : Holds m environment w) (k : Key) :
    Holds (m.erase k) (envRm behind environment k).2 (Function.update w k none) := by
  have herase := @eraseIdx_getInEnv behind _ _ h.plain k.2.2
  have hrm : (envRm behind environment k).2 = render (m.erase k) := by
    rw [← herase, ← h.rendered, envRm]
    split <;> simp_all
  rw [hrm]
  exact h.erase k

theorem Holds.getLast?_eq_iff (h : Holds m environment w) (k : Key) :
    (∃ value, environment.getLast? = some (keyval k value)) ↔
      ∃ e ∈ m.entries.getLast?, e.1 = k := by
  rw [h.rendered, render, List.getLast?_map]
  constructor
  · rintro ⟨value, hlast⟩
    obtain ⟨e, he, heq⟩ := Option.map_eq_some_iff.mp hlast
    have hkey := congrArg (fun env => (splitPairView env).1) heq
    simp only [splitPairView_keyval (h.plain e (List.mem_of_getLast? he)).2.1,
      splitPairView_keyval k.2.2] at hkey
    exact ⟨e, he, hkey⟩
  · rintro ⟨e, he, hkey⟩
    rw [Option.mem_def] at he
    exact ⟨e.2, by rw [he, Option.map_some, hkey]⟩

/-- The removal answers that of the map, but for the last entry. -/
theorem Holds.removed_iff (h : Holds m environment w) (k : Key) :
    (envRm behind environment k).1 = (w k).isSome ↔
      ∀ value, environment.getLast? ≠ some (keyval k value) := by
  have hget : getInEnv behind environment k = m.entries.findIdx? fun e => e.1 = k.1 := by
    rw [h.rendered, render, getInEnv_map h.plain k.2.2]
  have hlength : environment.length = m.entries.length := by
    rw [h.rendered, render, List.length_map]
  rw [← not_exists, h.getLast?_eq_iff k, ← h.find]
  cases hfind : m.entries.findIdx? fun e => e.1 = k.1 with
  | none =>
    have hnone := List.findIdx?_eq_none_iff.mp hfind
    have hkey : k.1 ∉ m.keys := by
      intro hmem
      obtain ⟨e, he, hek⟩ := List.mem_map.mp hmem
      simpa [hek] using hnone e he
    have hlast : ¬ ∃ e ∈ m.entries.getLast?, e.1 = k.1 := by
      rintro ⟨e, he, hek⟩
      simpa [hek] using hnone e (List.mem_of_getLast? he)
    rw [UnorderedMap.find_eq_none_iff.mpr hkey]
    exact iff_of_true (by simp [envRm, hget, hfind]) hlast
  | some it =>
    obtain ⟨hlt, hkey, -⟩ := List.findIdx?_eq_some_iff_getElem.mp hfind
    have hsome : m.find k = some m.entries[it].2 := by
      rw [UnorderedMap.find_eq_some_iff, ← of_decide_eq_true hkey]
      exact List.getElem_mem hlt
    have hrm : (envRm behind environment k).1 = decide (it ≠ environment.length - 1) := by
      simp only [envRm, hget, hfind]
      rw [List.length_eraseIdx_of_lt (hlength ▸ hlt)]
    rw [UnorderedMap.getLast?_iff_of_findIdx? hfind, hrm, hsome, Option.isSome_some,
      decide_eq_true_iff]
    omega

/-- A clean call. -/
theorem Holds.call (h : Holds m environment w) (c : Call) (hclean : Clean environment c) :
    (Environment.call behind environment c).1 = w.answer c ∧
      ∃ m', Holds m' (Environment.call behind environment c).2 (w.after c) := by
  cases c with
  | load toLoad => exact ⟨rfl, h.load hclean⟩
  | set key value => exact ⟨rfl, _, h.assign key hclean value⟩
  | get key => exact ⟨congrArg Answer.value (h.agrees.get key), m, h⟩
  | rm key => exact ⟨congrArg Answer.removed ((h.removed_iff key).mpr hclean), _, h.rm key⟩

/-- A call that is not clean is seen at once. -/
theorem Holds.clean (h : Holds m environment w) {c : Call}
    (hanswer : (Environment.call behind environment c).1 = w.answer c)
    (hagrees : Agrees behind (Environment.call behind environment c).2 (w.after c)) :
    Clean environment c := by
  cases c with
  | load toLoad =>
    intro env henv hzero
    have hkey : (splitPairView env).1 ≠ [] := List.ne_nil_of_mem hzero
    have hsome := isSome_foldl_loadEntry (w := w) (.inr ⟨env, henv, hkey, rfl⟩)
    exact hagrees.zero_notMem (k := ⟨_, hkey, not_mem_splitPairView env⟩) hsome hzero
  | set key value =>
    refine hagrees.zero_notMem (k := key) ?_
    rw [Written.after, Function.update_self]
    rfl
  | get key => trivial
  | rm key => exact (h.removed_iff key).mp (Answer.removed.inj hanswer)

theorem Agrees.of_mapLike {calls : List Call} (h : MapLike behind environment w calls) :
    Agrees behind environment w := by
  cases calls with
  | nil => exact h
  | cons c calls => exact h.1

theorem Holds.mapLike_iff {calls : List Call} (h : Holds m environment w) :
    MapLike behind environment w calls ↔ CleanRun behind environment calls := by
  induction calls generalizing m environment w with
  | nil => exact iff_of_true h.agrees trivial
  | cons c calls ih =>
    constructor
    · rintro ⟨-, hanswer, hrest⟩
      have hclean := h.clean hanswer (Agrees.of_mapLike hrest)
      obtain ⟨-, m', hnext⟩ := h.call c hclean
      exact ⟨hclean, (ih hnext).mp hrest⟩
    · rintro ⟨hclean, hrest⟩
      obtain ⟨hanswer, m', hnext⟩ := @Holds.call behind _ _ _ h c hclean
      exact ⟨h.agrees, hanswer, (ih hnext).mpr hrest⟩

/-- The environment of a process is a map in exactly the runs that give no key with
a zero and never remove the last entry of the vector. -/
theorem environment_mapLike_iff_cleanRun (behind : List UInt8 → List UInt8)
    (calls : List Call) :
    MapLike behind [] (fun _ => none) calls ↔ CleanRun behind [] calls :=
  Holds.mapLike_iff (m := .empty) ⟨by simp [Plain, UnorderedMap.empty], rfl, fun _ => rfl⟩

/-- `env_set("a", "1")` and `env_rm("a")`, which answers that there was no `a`. -/
theorem not_mapLike_of_removed_last :
    ¬ MapLike (fun _ => []) [] (fun _ => none)
      [.set ⟨[97], by decide⟩ [49], .rm ⟨[97], by decide⟩] := by
  rintro ⟨-, -, -, hanswer, -⟩
  exact absurd hanswer (by decide)

end Environment

end Sihd.Sys
