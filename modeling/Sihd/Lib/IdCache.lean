import Mathlib.Data.Finset.Card
import Mathlib.Logic.Function.Basic

/-!
# Numbers for keys

Keys are given the numbers from 1 on, one after the other, and keep them. When no number is
left below the limit, all keys lose theirs and the numbers begin again.
-/

structure IdCache (κ : Type*) where
  ids : κ → Option Nat
  next : Nat

namespace IdCache

variable {κ : Type*} {limit : Nat} {c : IdCache κ} {k k' : κ} {id : Nat}

def empty : IdCache κ := ⟨fun _ => none, 1⟩

def isFull (c : IdCache κ) (limit : Nat) : Bool := limit - 1 ≤ c.next

/-- The cache that gives the next key its number. -/
def renew (c : IdCache κ) (limit : Nat) : IdCache κ := if c.isFull limit then empty else c

/-- Numbers are below the limit, and no two keys have the same. -/
structure Valid (c : IdCache κ) (limit : Nat) : Prop where
  next_pos : 1 ≤ c.next
  pos : ∀ {k id}, c.ids k = some id → 1 ≤ id
  lt_next : ∀ {k id}, c.ids k = some id → id < c.next
  le_limit : ∀ {k id}, c.ids k = some id → id ≤ limit - 1
  injective : ∀ {k k' id}, c.ids k = some id → c.ids k' = some id → k = k'

theorem valid_empty (limit : Nat) : (empty : IdCache κ).Valid limit where
  next_pos := le_rfl
  pos h := by cases h
  lt_next h := by cases h
  le_limit h := by cases h
  injective h := by cases h

theorem renew_next_le (hlimit : 2 ≤ limit) (c : IdCache κ) : (c.renew limit).next ≤ limit - 1 := by
  rw [renew]
  split
  · change 1 ≤ limit - 1
    omega
  · rename_i hfull
    rw [isFull, decide_eq_true_iff] at hfull
    omega

theorem Valid.renew (h : c.Valid limit) : (c.renew limit).Valid limit := by
  rw [IdCache.renew]
  split
  · exact valid_empty limit
  · exact h

variable [DecidableEq κ]

def add (c : IdCache κ) (k : κ) : IdCache κ :=
  ⟨Function.update c.ids k (some c.next), c.next + 1⟩

def alloc (c : IdCache κ) (limit : Nat) (k : κ) : IdCache κ × Nat :=
  match c.ids k with
  | some id => (c, id)
  | none => ((c.renew limit).add k, (c.renew limit).next)

/-- The keys lose their numbers before this one is given one. -/
def resets (c : IdCache κ) (limit : Nat) (k : κ) : Bool := (c.ids k).isNone && c.isFull limit

theorem ids_add (c : IdCache κ) (k k' : κ) :
    (c.add k).ids k' = if k' = k then some c.next else c.ids k' :=
  Function.update_apply ..

theorem Valid.add (h : c.Valid limit) (hnext : c.next ≤ limit - 1) (k : κ) :
    (c.add k).Valid limit := by
  have hids : ∀ {k' id}, (c.add k).ids k' = some id →
      k' = k ∧ id = c.next ∨ k' ≠ k ∧ c.ids k' = some id := by
    intro k' id hid
    rw [ids_add] at hid
    split at hid
    · rename_i hk
      exact .inl ⟨hk, (Option.some.inj hid).symm⟩
    · rename_i hk
      exact .inr ⟨hk, hid⟩
  refine ⟨Nat.le_succ_of_le h.next_pos, fun hid => ?_, fun hid => ?_, fun hid => ?_,
    fun hid hid' => ?_⟩
  · rcases hids hid with ⟨-, rfl⟩ | ⟨-, hid⟩
    · exact h.next_pos
    · exact h.pos hid
  · rcases hids hid with ⟨-, rfl⟩ | ⟨-, hid⟩
    · exact Nat.lt_succ_self _
    · exact Nat.lt_succ_of_lt (h.lt_next hid)
  · rcases hids hid with ⟨-, rfl⟩ | ⟨-, hid⟩
    · exact hnext
    · exact h.le_limit hid
  · rcases hids hid with ⟨rfl, rfl⟩ | ⟨-, hid⟩
    · rcases hids hid' with ⟨rfl, -⟩ | ⟨-, hid'⟩
      · rfl
      · exact absurd (h.lt_next hid') (lt_irrefl _)
    · rcases hids hid' with ⟨-, rfl⟩ | ⟨-, hid'⟩
      · exact absurd (h.lt_next hid) (lt_irrefl _)
      · exact h.injective hid hid'

/-- The keys of a list that have no number. -/
def missing (c : IdCache κ) (ks : List κ) : Finset κ := ks.toFinset.filter (c.ids · = none)

/-- There are numbers left for all of a list. -/
def Fits (c : IdCache κ) (limit : Nat) (ks : List κ) : Prop :=
  (c.missing ks).card ≤ limit - 1 - c.next

instance (c : IdCache κ) (limit : Nat) (ks : List κ) : Decidable (c.Fits limit ks) :=
  inferInstanceAs (Decidable (_ ≤ _))

end IdCache
