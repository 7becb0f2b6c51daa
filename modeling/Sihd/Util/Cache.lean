import Mathlib.Logic.Function.Basic
import Mathlib.Data.Option.Basic
import Mathlib.Tactic.Common

/-!
# The cache

An entry keeps a value until it is invalidated or too old, and its getter gives the next one. What
a getter gives is a parameter here, `none` when it throws.
-/

namespace Sihd.Util

structure CacheEntry (ν : Type*) where
  hit : Nat
  miss : Nat
  lastRefresh : Int
  maxAge : Int
  cachedValue : ν

structure Cache (κ ν : Type*) where
  entry : κ → Option (CacheEntry ν)

namespace Cache

variable {κ ν : Type*}

def empty : Cache κ ν := ⟨fun _ => none⟩

def contains (c : Cache κ ν) (k : κ) : Bool := (c.entry k).isSome

def needsRefresh (e : CacheEntry ν) (ttl : Int) (now : Nat) : Bool :=
  let wasNeverRefreshed := e.lastRefresh < 0
  let isExpiredByTtl := ttl ≥ 0 && now - e.lastRefresh > ttl
  let isExpiredByMaxAge := e.maxAge ≥ 0 && now - e.lastRefresh > e.maxAge
  wasNeverRefreshed || isExpiredByTtl || isExpiredByMaxAge

/-- The value that was not invalidated since it was stored. -/
def kept (c : Cache κ ν) (k : κ) : Option ν :=
  (c.entry k).bind fun e => if e.lastRefresh < 0 then none else some e.cachedValue

/-- How a get ends. -/
inductive Found (κ ν : Type*) where
  | missingKey
  | thrown (c : Cache κ ν)
  | value (v : ν) (c : Cache κ ν)

variable [DecidableEq κ]

def put (c : Cache κ ν) (k : κ) (e : CacheEntry ν) : Cache κ ν :=
  ⟨Function.update c.entry k (some e)⟩

/-- A lazy entry has the default value of the type, which no get gives. -/
def set [Inhabited ν] (c : Cache κ ν) (k : κ) (value : Option ν) (now : Nat) (maxAge : Int) :
    Cache κ ν :=
  match value with
  | none => c.put k ⟨0, 0, -1, maxAge, default⟩
  | some v => c.put k ⟨0, 0, now, maxAge, v⟩

def get (c : Cache κ ν) (k : κ) (getter : Option ν) (now : Nat) (ttl : Int) : Found κ ν :=
  match c.entry k with
  | none => .missingKey
  | some e =>
    if needsRefresh e ttl now then
      match getter with
      | none => .thrown (c.put k { e with miss := e.miss + 1 })
      | some v => .value v
          (c.put k { e with miss := e.miss + 1, cachedValue := v, lastRefresh := now })
    else .value e.cachedValue (c.put k { e with hit := e.hit + 1 })

/-- `none` is an entry that is missing, where the call throws. -/
def invalidate (c : Cache κ ν) (k : κ) : Option (Cache κ ν) :=
  (c.entry k).map fun e => c.put k { e with lastRefresh := -1 }

def erase (c : Cache κ ν) (k : κ) : Cache κ ν := ⟨Function.update c.entry k none⟩

@[simp] theorem contains_put (c : Cache κ ν) (k : κ) (e : CacheEntry ν) (k' : κ) :
    (c.put k e).contains k' = true ↔ k' = k ∨ c.contains k' = true := by
  rw [contains, put]
  by_cases h : k' = k
  · subst h
    simp
  · simp [h, contains]

theorem kept_put_self (c : Cache κ ν) (k : κ) (e : CacheEntry ν) :
    (c.put k e).kept k = if e.lastRefresh < 0 then none else some e.cachedValue := by
  rw [kept, put]
  simp only [Function.update_self, Option.bind_some]

theorem kept_put_of_ne {k k' : κ} (h : k' ≠ k) (c : Cache κ ν) (e : CacheEntry ν) :
    (c.put k e).kept k' = c.kept k' := by
  rw [kept, put]
  simp only [Function.update_of_ne h]
  rfl

theorem kept_erase_self (c : Cache κ ν) (k : κ) : (c.erase k).kept k = none := by
  rw [kept, erase]
  simp only [Function.update_self, Option.bind_none]

theorem kept_erase_of_ne {k k' : κ} (h : k' ≠ k) (c : Cache κ ν) :
    (c.erase k).kept k' = c.kept k' := by
  rw [kept, erase]
  simp only [Function.update_of_ne h]
  rfl

theorem contains_erase_of_ne {k k' : κ} (h : k' ≠ k) (c : Cache κ ν) :
    (c.erase k).contains k' = c.contains k' := by
  rw [contains, erase]
  simp only [Function.update_of_ne h]
  rfl

/-- What is set is kept, and a lazy entry keeps nothing. -/
theorem kept_set_self [Inhabited ν] (c : Cache κ ν) (k : κ) (value : Option ν) (now : Nat)
    (maxAge : Int) : (c.set k value now maxAge).kept k = value := by
  cases value with
  | none => exact kept_put_self _ _ _
  | some v => exact (kept_put_self _ _ _).trans (if_neg (Int.not_lt.mpr (Int.natCast_nonneg _)))

theorem kept_set_of_ne [Inhabited ν] {k k' : κ} (h : k' ≠ k) (c : Cache κ ν) (value : Option ν)
    (now : Nat) (maxAge : Int) : (c.set k value now maxAge).kept k' = c.kept k' := by
  cases value with
  | none => exact kept_put_of_ne h _ _
  | some v => exact kept_put_of_ne h _ _

theorem contains_set [Inhabited ν] (c : Cache κ ν) (k : κ) (value : Option ν) (now : Nat)
    (maxAge : Int) (k' : κ) :
    (c.set k value now maxAge).contains k' = true ↔ k' = k ∨ c.contains k' = true := by
  cases value with
  | none => exact contains_put _ _ _ _
  | some v => exact contains_put _ _ _ _

theorem invalidate_isSome {c : Cache κ ν} {k : κ} (h : c.contains k = true) :
    ∃ c', c.invalidate k = some c' := by
  obtain ⟨e, he⟩ := Option.isSome_iff_exists.mp h
  exact ⟨_, by rw [invalidate, he]; rfl⟩

theorem invalidate_eq_some {c c' : Cache κ ν} {k : κ} (h : c.invalidate k = some c') :
    c'.kept k = none ∧ (∀ k', k' ≠ k → c'.kept k' = c.kept k') ∧
      ∀ k', c.contains k' = true → c'.contains k' = true := by
  obtain ⟨e, -, rfl⟩ := Option.map_eq_some_iff.mp h
  exact ⟨kept_put_self _ _ _, fun k' hk => kept_put_of_ne hk _ _,
    fun k' hk => (contains_put _ _ _ _).mpr (.inr hk)⟩

/-- A value that a get gives is one that was kept or that the getter gives, and it is kept. -/
theorem get_eq_value {c c' : Cache κ ν} {k : κ} {getter : Option ν} {now : Nat} {ttl : Int} {v : ν}
    (h : c.get k getter now ttl = .value v c') :
    (c.kept k = some v ∨ getter = some v) ∧ c'.kept k = some v ∧
      (∀ k', k' ≠ k → c'.kept k' = c.kept k') ∧
      ∀ k', c.contains k' = true → c'.contains k' = true := by
  rw [get] at h
  split at h
  · cases h
  · rename_i e he
    split at h
    · split at h
      · cases h
      · cases h
        refine ⟨.inr rfl, ?_, fun k' hk => kept_put_of_ne hk _ _,
          fun k' hk => (contains_put _ _ _ _).mpr (.inr hk)⟩
        exact (kept_put_self _ _ _).trans (if_neg (Int.not_lt.mpr (Int.natCast_nonneg _)))
    · rename_i hrefresh
      cases h
      have hlast : ¬ e.lastRefresh < 0 := by
        intro hlt
        exact hrefresh (by simp [needsRefresh, hlt])
      refine ⟨.inl ?_, (kept_put_self _ _ _).trans (if_neg hlast),
        fun k' hk => kept_put_of_ne hk _ _, fun k' hk => (contains_put _ _ _ _).mpr (.inr hk)⟩
      rw [kept, he]
      exact if_neg hlast

theorem get_eq_thrown {c c' : Cache κ ν} {k : κ} {getter : Option ν} {now : Nat} {ttl : Int}
    (h : c.get k getter now ttl = .thrown c') :
    (∀ k', c'.kept k' = c.kept k') ∧ ∀ k', c.contains k' = true → c'.contains k' = true := by
  rw [get] at h
  split at h
  · cases h
  · rename_i e he
    split at h
    · split at h
      · cases h
        refine ⟨fun k' => ?_, fun k' hk => (contains_put _ _ _ _).mpr (.inr hk)⟩
        by_cases hk : k' = k
        · subst hk
          rw [kept_put_self, kept, he]
          rfl
        · exact kept_put_of_ne hk _ _
      · cases h
    · cases h

end Cache

end Sihd.Util
