import Mathlib.Algebra.Order.Group.Nat
import Mathlib.Tactic.Common

/-!
# A heap of blocks

Blocks are named by the order in which they are allocated and a name is never
used again, so that a block that was released stays so. `free` and `realloc` of
a block that is not live are `none`. What `realloc` does is up to the C library:
it can fail, leave the block where it is, or move it, and a failure for a size
of zero releases the block.
-/

structure Heap where
  next : Nat
  live : Nat → Bool
  lt_next : ∀ b, live b = true → b < next

/-- What the C library does in a call to `realloc`. -/
inductive Outcome
  | fails
  | stays
  | moves
  deriving DecidableEq

namespace Heap

def empty : Heap where
  next := 0
  live _ := false
  lt_next _ h := by cases h

def release (h : Heap) (b : Nat) : Heap where
  next := h.next
  live := Function.update h.live b false
  lt_next c hc := by
    by_cases hcb : c = b
    · rw [hcb, Function.update_self] at hc
      cases hc
    · rw [Function.update_of_ne hcb] at hc
      exact h.lt_next c hc

/-- The heap with the block `h.next`. -/
def alloc (h : Heap) : Heap where
  next := h.next + 1
  live := Function.update h.live h.next true
  lt_next c hc := by
    by_cases hcb : c = h.next
    · omega
    · rw [Function.update_of_ne hcb] at hc
      exact (h.lt_next c hc).trans (Nat.lt_succ_self _)

def free (h : Heap) (b : Nat) : Option Heap :=
  if h.live b then some (h.release b) else none

/-- `realloc` of a block, or of the null pointer, with the pointer it returns. -/
def realloc (h : Heap) (o : Outcome) (p : Option Nat) (bytes : Nat) :
    Option (Option Nat × Heap) :=
  match p with
  | none =>
      match o with
      | .fails => some (none, h)
      | .stays | .moves => some (some h.next, h.alloc)
  | some b =>
      if h.live b then
        match o with
        | .fails => some (none, if bytes = 0 then h.release b else h)
        | .stays => some (some b, h)
        | .moves => some (some h.next, h.alloc.release b)
      else none

section Lemmas

variable {h h' : Heap} {b : Nat}

theorem release_live_of_ne {c : Nat} (hne : c ≠ b) : (h.release b).live c = h.live c :=
  Function.update_of_ne hne _ _

theorem alloc_live_next (h : Heap) : h.alloc.live h.next = true := Function.update_self _ _ _

theorem alloc_live {c : Nat} (hc : h.live c = true) : h.alloc.live c = true := by
  have hupdate := Function.update_of_ne (h.lt_next c hc).ne true h.live
  exact hupdate.trans hc

theorem free_of_live (hb : h.live b = true) : h.free b = some (h.release b) := if_pos hb

/-- What a user of the block `p` may do to a heap: the blocks of the others stay
live, and the block it has afterwards is live and was its own or is new. -/
structure Changes (h : Heap) (p : Option Nat) (h' : Heap) (p' : Option Nat) : Prop where
  next_le : h.next ≤ h'.next
  others : ∀ c, p ≠ some c → h.live c = true → h'.live c = true
  own : ∀ c, p' = some c → h'.live c = true ∧ (p = some c ∨ h.next ≤ c)

theorem Changes.refl {p : Option Nat} (hp : ∀ c, p = some c → h.live c = true) :
    Changes h p h p where
  next_le := le_rfl
  others _ _ hc := hc
  own c hc := ⟨hp c hc, .inl hc⟩

theorem Changes.trans {h'' : Heap} {p p' p'' : Option Nat} (hchanges : Changes h p h' p')
    (hchanges' : Changes h' p' h'' p'') : Changes h p h'' p'' where
  next_le := hchanges.next_le.trans hchanges'.next_le
  others c hne hc := by
    refine hchanges'.others c (fun heq => ?_) (hchanges.others c hne hc)
    rcases (hchanges.own c heq).2 with hp | hnext
    · exact hne hp
    · exact absurd (h.lt_next c hc) (by omega)
  own c hc := by
    obtain ⟨hlive, hown | hnext⟩ := hchanges'.own c hc
    · exact ⟨hlive, (hchanges.own c hown).2⟩
    · exact ⟨hlive, .inr (hchanges.next_le.trans hnext)⟩

theorem changes_free (hb : h.live b = true) :
    ∃ h', h.free b = some h' ∧ Changes h (some b) h' none := by
  refine ⟨_, free_of_live hb, le_rfl, fun c hne hc => ?_, fun c hc => by cases hc⟩
  rw [release_live_of_ne (fun heq => hne (by rw [heq]))]
  exact hc

/-- `realloc` of a live block, or of the null pointer: it succeeds, or it fails
and leaves the block, unless the size is zero. -/
theorem changes_realloc {p : Option Nat} (hp : ∀ c, p = some c → h.live c = true)
    (o : Outcome) {bytes : Nat} (hbytes : p = none ∨ bytes ≠ 0) :
    ∃ r h', h.realloc o p bytes = some (r, h') ∧ Changes h p h' (r.or p) := by
  cases p with
  | none =>
    have hnew : Changes h none h.alloc (some h.next) := by
      refine ⟨Nat.le_succ _, fun c _ hc => alloc_live hc, fun c hc => ?_⟩
      obtain rfl := Option.some.inj hc
      exact ⟨alloc_live_next h, .inr le_rfl⟩
    cases o with
    | fails => exact ⟨none, h, rfl, .refl hp⟩
    | stays => exact ⟨_, _, rfl, hnew⟩
    | moves => exact ⟨_, _, rfl, hnew⟩
  | some b =>
    have hb := hp b rfl
    have hsize := hbytes.resolve_left (by simp)
    cases o with
    | fails =>
      refine ⟨none, h, ?_, .refl hp⟩
      simp only [realloc, hb, if_true, if_neg hsize]
    | stays =>
      refine ⟨some b, h, ?_, .refl hp⟩
      simp only [realloc, hb, if_true]
    | moves =>
      refine ⟨some h.next, h.alloc.release b, by simp only [realloc, hb, if_true],
        Nat.le_succ _, fun c hne hc => ?_, fun c hc => ?_⟩
      · rw [release_live_of_ne (fun heq => hne (by rw [heq]))]
        exact alloc_live hc
      · obtain rfl := Option.some.inj hc
        rw [release_live_of_ne (h.lt_next b hb).ne']
        exact ⟨alloc_live_next h, .inr le_rfl⟩

end Lemmas

end Heap
