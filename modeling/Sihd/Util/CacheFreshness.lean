import Mathlib.Order.Monotone.Basic
import Sihd.Lib.UnorderedMap
import Sihd.Util.Cache

/-!
# How fresh a cached value is

The cache with its getters and its clock. A getter completes at one instant and
the clock is read at another one, so each of them is an instant of its own here.
`events` is what happened to the entries, the latest first. A getter gives any
value, but it does not throw and it leaves the cache alone.
-/

namespace Sihd.Util

/-- The times of the instants, one after the other. -/
structure SteadyClock where
  time : Nat → Nat
  monotone : Monotone time

structure GetterEntry (γ ν : Type*) extends CacheEntry ν where
  getter : γ

/-- A call of a getter, and the time that the cache keeps for it. -/
structure GetterCall (γ ν : Type*) where
  getter : γ
  value : ν
  completed : Nat
  stamp : Nat

inductive CacheEvent (κ γ ν : Type*) where
  | called (k : κ) (call : GetterCall γ ν)
  | invalidated (k : κ)
  | invalidatedAll

structure GetterCache (κ γ ν : Type*) where
  entries : UnorderedMap κ (GetterEntry γ ν)
  instant : Nat
  events : List (CacheEvent κ γ ν)

/-- The calls of the cache. -/
inductive CacheOp (κ γ : Type*) where
  | set (k : κ) (getter : γ) (maxAge : Int) (lazy : Bool)
  | get (k : κ) (ttl : Int)
  | getOptional (k : κ) (ttl : Int)
  | refreshStale
  | refreshAll
  | invalidate (k : κ)
  | invalidateAll
  | erase (k : κ)

/-- The call is one of the getter, and the clock was read right after it or right before it. -/
def GetterCall.Made {γ ν : Type*} (clock : SteadyClock) (produce : γ → Nat → ν)
    (call : GetterCall γ ν) : Prop :=
  ∃ n, call.value = produce call.getter n ∧ call.completed = clock.time n ∧
    (call.stamp = clock.time (n + 1) ∨ ∃ m, n = m + 1 ∧ call.stamp = clock.time m)

/-- The event invalidates the entry of `k`. -/
def CacheEvent.Ends {κ γ ν : Type*} (k : κ) : CacheEvent κ γ ν → Prop
  | .called _ _ => False
  | .invalidated k' => k' = k
  | .invalidatedAll => True

namespace GetterCache

variable {κ γ ν : Type*}

def empty : GetterCache κ γ ν := ⟨UnorderedMap.empty, 0, []⟩

section Operations

variable [DecidableEq κ] (clock : SteadyClock) (produce : γ → Nat → ν)

/-- A getter was called for the entry of a key, which has the value now. -/
def store (c : GetterCache κ γ ν) (k : κ) (e : GetterEntry γ ν) (call : GetterCall γ ν)
    (instant : Nat) : GetterCache κ γ ν where
  entries := c.entries.assign k
    { e with cachedValue := call.value, lastRefresh := call.stamp, getter := call.getter }
  instant := instant
  events := .called k call :: c.events

/-- The getter completes at the first instant, and the clock is read at the next one. -/
def set [Inhabited ν] (c : GetterCache κ γ ν) (k : κ) (getter : γ) (maxAge : Int) (lazy : Bool) :
    GetterCache κ γ ν :=
  let e : GetterEntry γ ν :=
    { hit := 0, miss := 0, lastRefresh := -1, maxAge, cachedValue := default, getter }
  if lazy then { c with entries := c.entries.assign k e }
  else
    let value := produce getter c.instant
    let now := clock.time (c.instant + 1)
    c.store k e ⟨getter, value, clock.time c.instant, now⟩ (c.instant + 2)

/-- `none` is a key that is missing, where the call throws. -/
def get (c : GetterCache κ γ ν) (k : κ) (ttl : Int) : Option (ν × GetterCache κ γ ν) :=
  (c.entries.find k).map fun e =>
    let now := clock.time c.instant
    if Cache.needsRefresh e.toCacheEntry ttl now then
      let value := produce e.getter (c.instant + 1)
      let call := ⟨e.getter, value, clock.time (c.instant + 1), clock.time (c.instant + 2)⟩
      (value, c.store k { e with miss := e.miss + 1 } call (c.instant + 3))
    else
      let e' := { e with hit := e.hit + 1 }
      (e'.cachedValue, { c with entries := c.entries.assign k e', instant := c.instant + 1 })

/-- `none` is `std::nullopt`, for a key that is missing. -/
def getOptional (c : GetterCache κ γ ν) (k : κ) (ttl : Int) : Option ν × GetterCache κ γ ν :=
  match c.get clock produce k ttl with
  | some (value, c') => (some value, c')
  | none => (none, c)

/-- The body of the loop of `refreshStale`, which reads the clock first. -/
def refreshStaleEntry (c : GetterCache κ γ ν) (k : κ) : GetterCache κ γ ν :=
  match c.entries.find k with
  | none => c
  | some e =>
    let now := clock.time c.instant
    if Cache.needsRefresh e.toCacheEntry (-1) now then
      let value := produce e.getter (c.instant + 1)
      c.store k e ⟨e.getter, value, clock.time (c.instant + 1), now⟩ (c.instant + 2)
    else { c with instant := c.instant + 1 }

def refreshStale (c : GetterCache κ γ ν) : GetterCache κ γ ν :=
  c.entries.keys.foldl (refreshStaleEntry clock produce) c

/-- The body of the loop of `refreshAll`, which reads the clock last. -/
def refreshEntry (c : GetterCache κ γ ν) (k : κ) : GetterCache κ γ ν :=
  match c.entries.find k with
  | none => c
  | some e =>
    let value := produce e.getter c.instant
    let now := clock.time (c.instant + 1)
    c.store k e ⟨e.getter, value, clock.time c.instant, now⟩ (c.instant + 2)

def refreshAll (c : GetterCache κ γ ν) : GetterCache κ γ ν :=
  c.entries.keys.foldl (refreshEntry clock produce) c

/-- A key that is missing throws, and the entries stay. -/
def invalidate (c : GetterCache κ γ ν) (k : κ) : GetterCache κ γ ν :=
  match c.entries.find k with
  | none => { c with events := .invalidated k :: c.events }
  | some e =>
    { c with
      entries := c.entries.assign k { e with lastRefresh := -1 }
      events := .invalidated k :: c.events }

def invalidateAll (c : GetterCache κ γ ν) : GetterCache κ γ ν :=
  { c with
    entries := c.entries.mapValues fun e => { e with lastRefresh := -1 }
    events := .invalidatedAll :: c.events }

def erase (c : GetterCache κ γ ν) (k : κ) : GetterCache κ γ ν :=
  { c with entries := c.entries.erase k }

/-- The keys that need a refresh, with one reading of the clock for all of them. -/
def staleEntries (c : GetterCache κ γ ν) (ttl : Int) : List κ × GetterCache κ γ ν :=
  let now := clock.time c.instant
  ((c.entries.entries.filter fun e => Cache.needsRefresh e.2.toCacheEntry ttl now).map Prod.fst,
    { c with instant := c.instant + 1 })

def step [Inhabited ν] (c : GetterCache κ γ ν) : CacheOp κ γ → GetterCache κ γ ν
  | .set k getter maxAge lazy => c.set clock produce k getter maxAge lazy
  | .get k ttl => ((c.get clock produce k ttl).map Prod.snd).getD c
  | .getOptional k ttl => (c.getOptional clock produce k ttl).2
  | .refreshStale => c.refreshStale clock produce
  | .refreshAll => c.refreshAll clock produce
  | .invalidate k => c.invalidate k
  | .invalidateAll => c.invalidateAll
  | .erase k => c.erase k

def run [Inhabited ν] (ops : List (CacheOp κ γ)) : GetterCache κ γ ν :=
  ops.foldl (step clock produce) empty

end Operations

section Invariant

variable {clock : SteadyClock} {produce : γ → Nat → ν} {events : List (CacheEvent κ γ ν)} {k : κ}

/-- The entry of `k` was not invalidated since the call. -/
def Since (events : List (CacheEvent κ γ ν)) (k : κ) (call : GetterCall γ ν) : Prop :=
  ∃ after before, events = after ++ .called k call :: before ∧ ∀ event ∈ after, ¬ event.Ends k

theorem since_called (k : κ) (call : GetterCall γ ν) :
    Since (.called k call :: events) k call :=
  ⟨[], events, rfl, fun _ h => absurd h List.not_mem_nil⟩

theorem Since.cons {call : GetterCall γ ν} (h : Since events k call) {event : CacheEvent κ γ ν}
    (hevent : ¬ event.Ends k) : Since (event :: events) k call := by
  obtain ⟨after, before, rfl, hafter⟩ := h
  exact ⟨event :: after, before, rfl, List.forall_mem_cons.mpr ⟨hevent, hafter⟩⟩

/-- The value of a refreshed entry is that of a call of its getter, which gave it its time. -/
def Vouched (clock : SteadyClock) (produce : γ → Nat → ν) (events : List (CacheEvent κ γ ν))
    (k : κ) (e : GetterEntry γ ν) : Prop :=
  0 ≤ e.lastRefresh → ∃ call : GetterCall γ ν, Since events k call ∧ call.Made clock produce ∧
    call.getter = e.getter ∧ call.value = e.cachedValue ∧ (call.stamp : Int) = e.lastRefresh

theorem Vouched.cons {e : GetterEntry γ ν} (h : Vouched clock produce events k e)
    {event : CacheEvent κ γ ν} (hevent : ¬ event.Ends k) :
    Vouched clock produce (event :: events) k e := by
  intro hrefresh
  obtain ⟨call, hsince, hcall⟩ := h hrefresh
  exact ⟨call, hsince.cons hevent, hcall⟩

theorem vouched_of_never {e : GetterEntry γ ν} (h : e.lastRefresh = -1) :
    Vouched clock produce events k e := by
  intro hrefresh
  omega

variable [DecidableEq κ] {c : GetterCache κ γ ν}

/-- Every entry is vouched for. -/
def Linked (clock : SteadyClock) (produce : γ → Nat → ν) (c : GetterCache κ γ ν) : Prop :=
  ∀ k e, c.entries.find k = some e → Vouched clock produce c.events k e

theorem linked_empty : (empty : GetterCache κ γ ν).Linked clock produce := by
  intro k e hfind
  cases hfind

/-- Only the entry of `k` is new, and what happened leaves the other ones alone. -/
theorem Linked.assign (h : c.Linked clock produce) {e : GetterEntry γ ν} {instant : Nat}
    (he : Vouched clock produce events k e)
    (hothers : ∀ k', k' ≠ k → ∀ e', Vouched clock produce c.events k' e' →
      Vouched clock produce events k' e') :
    Linked clock produce ⟨c.entries.assign k e, instant, events⟩ := by
  intro k' e' hfind
  by_cases hk : k' = k
  · subst hk
    rw [UnorderedMap.find_assign_self, Option.some_inj] at hfind
    subst hfind
    exact he
  · rw [UnorderedMap.find_assign_of_ne _ hk] at hfind
    exact hothers k' hk e' (h k' e' hfind)

theorem Linked.store (h : c.Linked clock produce) (e : GetterEntry γ ν) {call : GetterCall γ ν}
    (hcall : call.Made clock produce) (instant : Nat) :
    (c.store k e call instant).Linked clock produce := by
  apply h.assign
  · intro _
    exact ⟨call, since_called k call, hcall, rfl, rfl, rfl⟩
  · intro k' _ e' he'
    exact he'.cons not_false

/-- A call whose time is read at the next instant. -/
theorem made_before_reading (getter : γ) (n : Nat) :
    GetterCall.Made clock produce ⟨getter, produce getter n, clock.time n, clock.time (n + 1)⟩ :=
  ⟨n, rfl, rfl, .inl rfl⟩

/-- A call whose time was read at the instant before. -/
theorem made_after_reading (getter : γ) (n : Nat) :
    GetterCall.Made clock produce
      ⟨getter, produce getter (n + 1), clock.time (n + 1), clock.time n⟩ :=
  ⟨n + 1, rfl, rfl, .inr ⟨n, rfl, rfl⟩⟩

theorem Linked.set [Inhabited ν] (h : c.Linked clock produce) (k : κ) (getter : γ) (maxAge : Int)
    (lazy : Bool) : (c.set clock produce k getter maxAge lazy).Linked clock produce := by
  cases lazy with
  | true => exact h.assign (vouched_of_never rfl) fun _ _ _ he => he
  | false => exact h.store _ (made_before_reading getter c.instant) _

/-- What a get does: it calls the getter for an entry that needs a refresh, and for no other one. -/
theorem get_cases {ttl : Int} {v : ν} {c' : GetterCache κ γ ν}
    (h : c.get clock produce k ttl = some (v, c')) :
    ∃ e, c.entries.find k = some e ∧
      (Cache.needsRefresh e.toCacheEntry ttl (clock.time c.instant) = true ∧
          v = produce e.getter (c.instant + 1) ∧
          c' = c.store k { e with miss := e.miss + 1 }
            ⟨e.getter, v, clock.time (c.instant + 1), clock.time (c.instant + 2)⟩ (c.instant + 3) ∨
        Cache.needsRefresh e.toCacheEntry ttl (clock.time c.instant) = false ∧
          v = e.cachedValue ∧
          c' = ⟨c.entries.assign k { e with hit := e.hit + 1 }, c.instant + 1, c.events⟩) := by
  obtain ⟨e, hfind, heq⟩ := Option.map_eq_some_iff.mp h
  refine ⟨e, hfind, ?_⟩
  dsimp only at heq
  split at heq
  · rename_i hrefresh
    cases heq
    exact .inl ⟨hrefresh, rfl, rfl⟩
  · rename_i hrefresh
    cases heq
    exact .inr ⟨eq_false_of_ne_true hrefresh, rfl, rfl⟩

theorem get_of_needsRefresh {e : GetterEntry γ ν} {ttl : Int} (hfind : c.entries.find k = some e)
    (hrefresh : Cache.needsRefresh e.toCacheEntry ttl (clock.time c.instant) = true) :
    c.get clock produce k ttl = some (produce e.getter (c.instant + 1),
      c.store k { e with miss := e.miss + 1 }
        ⟨e.getter, produce e.getter (c.instant + 1), clock.time (c.instant + 1),
          clock.time (c.instant + 2)⟩ (c.instant + 3)) := by
  rw [GetterCache.get, hfind, Option.map_some]
  dsimp only
  rw [if_pos hrefresh]

theorem Linked.get (h : c.Linked clock produce) {ttl : Int} {v : ν} {c' : GetterCache κ γ ν}
    (hget : c.get clock produce k ttl = some (v, c')) : c'.Linked clock produce := by
  obtain ⟨e, hfind, ⟨-, rfl, rfl⟩ | ⟨-, rfl, rfl⟩⟩ := get_cases hget
  · exact h.store _ (made_before_reading e.getter (c.instant + 1)) _
  · exact h.assign (h k e hfind) fun _ _ _ he => he

theorem Linked.refreshStaleEntry (h : c.Linked clock produce) (k : κ) :
    (c.refreshStaleEntry clock produce k).Linked clock produce := by
  unfold GetterCache.refreshStaleEntry
  split
  · exact h
  · rename_i e _
    dsimp only
    split
    · exact h.store e (made_after_reading e.getter c.instant) _
    · exact h

theorem Linked.refreshEntry (h : c.Linked clock produce) (k : κ) :
    (c.refreshEntry clock produce k).Linked clock produce := by
  unfold GetterCache.refreshEntry
  split
  · exact h
  · rename_i e _
    exact h.store e (made_before_reading e.getter c.instant) _

theorem Linked.invalidate (h : c.Linked clock produce) (k : κ) :
    (c.invalidate k).Linked clock produce := by
  have hothers : ∀ k', k' ≠ k → ∀ e', Vouched clock produce c.events k' e' →
      Vouched clock produce (.invalidated k :: c.events) k' e' :=
    fun k' hk e' he' => he'.cons (Ne.symm hk)
  unfold GetterCache.invalidate
  split
  · rename_i hnone
    intro k' e' hfind
    have hk : k' ≠ k := by
      rintro rfl
      rw [hnone] at hfind
      cases hfind
    exact hothers k' hk e' (h k' e' hfind)
  · exact h.assign (vouched_of_never rfl) hothers

theorem linked_invalidateAll (c : GetterCache κ γ ν) : c.invalidateAll.Linked clock produce := by
  intro k e hfind
  rw [invalidateAll, UnorderedMap.find_mapValues, Option.map_eq_some_iff] at hfind
  obtain ⟨e', -, rfl⟩ := hfind
  exact vouched_of_never rfl

theorem Linked.erase (h : c.Linked clock produce) (k : κ) :
    (c.erase k).Linked clock produce := by
  intro k' e' hfind
  by_cases hk : k' = k
  · subst hk
    rw [GetterCache.erase, UnorderedMap.find_erase_self] at hfind
    cases hfind
  · rw [GetterCache.erase, UnorderedMap.find_erase_of_ne _ hk] at hfind
    exact h k' e' hfind

theorem Linked.step [Inhabited ν] (h : c.Linked clock produce) (op : CacheOp κ γ) :
    (c.step clock produce op).Linked clock produce := by
  cases op with
  | set k getter maxAge lazy => exact h.set k getter maxAge lazy
  | get k ttl =>
    rw [GetterCache.step]
    cases hget : c.get clock produce k ttl with
    | none => exact h
    | some r => exact h.get hget
  | getOptional k ttl =>
    rw [GetterCache.step, getOptional]
    split
    · rename_i hget
      exact h.get hget
    · exact h
  | refreshStale =>
    exact List.foldlRecOn _ _ h fun _ hc k _ => hc.refreshStaleEntry k
  | refreshAll =>
    exact List.foldlRecOn _ _ h fun _ hc k _ => hc.refreshEntry k
  | invalidate k => exact h.invalidate k
  | invalidateAll => exact linked_invalidateAll c
  | erase k => exact h.erase k

theorem linked_run [Inhabited ν] (clock : SteadyClock) (produce : γ → Nat → ν)
    (ops : List (CacheOp κ γ)) : (run clock produce ops).Linked clock produce :=
  List.foldlRecOn _ _ linked_empty fun _ hc op _ => hc.step op

/-- How old an entry is that needs no refresh. -/
theorem age_le {e : CacheEntry ν} {ttl : Int} {now : Nat}
    (h : Cache.needsRefresh e ttl now = false) :
    0 ≤ e.lastRefresh ∧ (0 ≤ ttl → now - e.lastRefresh ≤ ttl) ∧
      (0 ≤ e.maxAge → now - e.lastRefresh ≤ e.maxAge) := by
  simp only [Cache.needsRefresh, Bool.or_eq_false_iff, Bool.and_eq_false_iff,
    decide_eq_false_iff_not] at h
  omega

/-- The value is that of a call of the entry's getter, which is at `now` no older than the entry's
age and the given one allow. `time` says from when on its age is counted. -/
def Fresh (clock : SteadyClock) (produce : γ → Nat → ν) (time : GetterCall γ ν → Nat)
    (c : GetterCache κ γ ν) (k : κ) (ttl : Int) (now : Nat) (v : ν) : Prop :=
  ∃ e call, c.entries.find k = some e ∧ Since c.events k call ∧ call.Made clock produce ∧
    call.getter = e.getter ∧ call.value = v ∧ (0 ≤ ttl → (now - time call : Int) ≤ ttl) ∧
    (0 ≤ e.maxAge → (now - time call : Int) ≤ e.maxAge)

theorem Linked.fresh (h : c.Linked clock produce) {ttl : Int} {v : ν} {c' : GetterCache κ γ ν}
    (hget : c.get clock produce k ttl = some (v, c')) :
    Fresh clock produce GetterCall.stamp c' k ttl (clock.time c.instant) v := by
  obtain ⟨e, hfind, ⟨-, rfl, rfl⟩ | ⟨hrefresh, rfl, rfl⟩⟩ := get_cases hget
  · have hnow : clock.time c.instant ≤ clock.time (c.instant + 2) :=
      clock.monotone (Nat.le_add_right _ 2)
    refine ⟨_, _, UnorderedMap.find_assign_self _ _ _, since_called _ _,
      made_before_reading e.getter (c.instant + 1), rfl, rfl, ?_, ?_⟩
    · intro httl
      dsimp only
      omega
    · intro hage
      dsimp only at hage ⊢
      omega
  · obtain ⟨hrefreshed, httl, hage⟩ := age_le hrefresh
    obtain ⟨call, hsince, hmade, hgetter, hvalue, hstamp⟩ := h k e hfind hrefreshed
    refine ⟨_, call, UnorderedMap.find_assign_self _ _ _, hsince, hmade, hgetter, hvalue, ?_, ?_⟩
    · rw [hstamp]
      exact httl
    · rw [hstamp]
      exact hage

/-- The stale entries are those whose getter a get calls at the same time. -/
theorem mem_staleEntries_iff (produce : γ → Nat → ν) {ttl : Int}
    (hsame : clock.time (c.instant + 1) = clock.time c.instant) :
    k ∈ (c.staleEntries clock ttl).1 ↔
      ∃ v c' call, (c.staleEntries clock ttl).2.get clock produce k ttl = some (v, c') ∧
        c'.events = .called k call :: c.events := by
  rw [staleEntries, List.mem_map]
  constructor
  · rintro ⟨⟨k', e⟩, hmem, rfl⟩
    obtain ⟨hmem, hrefresh⟩ := List.mem_filter.mp hmem
    rw [← UnorderedMap.find_eq_some_iff] at hmem
    rw [← hsame] at hrefresh
    exact ⟨_, _, _, get_of_needsRefresh hmem hrefresh, rfl⟩
  · rintro ⟨v, c', call, hget, hevents⟩
    obtain ⟨e, hfind, ⟨hrefresh, -⟩ | ⟨-, -, rfl⟩⟩ := get_cases hget
    · refine ⟨(k, e), List.mem_filter.mpr ⟨UnorderedMap.find_eq_some_iff.mp hfind, ?_⟩, rfl⟩
      rwa [← hsame]
    · exact absurd hevents.symm (List.cons_ne_self _ _)

/-- What a get gives after any calls is fresh, and the stale entries are those it would refresh. -/
theorem run_fresh [Inhabited ν] (clock : SteadyClock) (produce : γ → Nat → ν)
    (ops : List (CacheOp κ γ)) :
    (∀ k ttl v c', (run clock produce ops).get clock produce k ttl = some (v, c') →
      Fresh clock produce GetterCall.stamp c' k ttl
        (clock.time (run clock produce ops).instant) v) ∧
    ∀ ttl k, clock.time ((run clock produce ops).instant + 1) =
        clock.time (run clock produce ops).instant →
      (k ∈ ((run clock produce ops).staleEntries clock ttl).1 ↔
        ∃ v c' call, ((run clock produce ops).staleEntries clock ttl).2.get clock produce k ttl =
          some (v, c') ∧ c'.events = .called k call :: (run clock produce ops).events) :=
  ⟨fun _ _ _ _ hget => (linked_run clock produce ops).fresh hget,
    fun _ _ hsame => mem_staleEntries_iff produce hsame⟩

theorem run_fresh_two :
    Fresh ⟨id, monotone_id⟩ (fun _ n => n) GetterCall.stamp
      (run ⟨id, monotone_id⟩ (fun _ n => n) [.set 0 0 (-1) false, .get 0 1]) 0 1 2 0 :=
  (run_fresh ⟨id, monotone_id⟩ (fun (_ : Nat) n => n) [.set 0 0 (-1) false]).1 0 1 0 _ rfl

/-- The clock goes on between the end of the getter and the reading, so the value is older than
its entry. -/
theorem not_fresh_completed :
    ¬ ∀ (clock : SteadyClock) (produce : Nat → Nat → Nat) (ops : List (CacheOp Nat Nat)) (k : Nat)
      (ttl : Int) (v : Nat) (c' : GetterCache Nat Nat Nat),
      (run clock produce ops).get clock produce k ttl = some (v, c') →
        Fresh clock produce GetterCall.completed c' k ttl
          (clock.time (run clock produce ops).instant) v := by
  intro h
  obtain ⟨e, call, -, ⟨after, before, hevents, -⟩, -, -, -, httl, -⟩ :=
    h ⟨id, monotone_id⟩ (fun _ n => n) [.set 0 0 (-1) false] 0 1 0 _ rfl
  have hcall : CacheEvent.called 0 call ∈ [CacheEvent.called 0 ⟨0, 0, 0, 1⟩] := by
    change [CacheEvent.called 0 ⟨0, 0, 0, 1⟩] = _ at hevents
    rw [hevents]
    simp
  rw [List.mem_singleton] at hcall
  cases hcall
  have := httl (by decide)
  revert this
  decide

end Invariant

end GetterCache

end Sihd.Util
