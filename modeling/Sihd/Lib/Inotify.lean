import Mathlib.Logic.Function.Basic
import Mathlib.Data.Option.Basic
import Mathlib.Data.List.Nodup
import Mathlib.Tactic.Common

/-!
# Watches on inodes

Paths name inodes, and inodes have contents. A watch is one on an inode: what happens to an inode
that is watched is queued before it can be seen, with the descriptor of the watch. A path may name
another inode later, and nothing tells the watch so.
-/

namespace Inotify

/-! ### Files -/

/-- `links` counts the paths of an inode. -/
structure Files (π γ : Type*) where
  inode : π → Option Nat
  links : Nat → Nat
  content : Nat → γ
  next : Nat
  fresh : ∀ p i, inode p = some i → i < next

/-- What may happen to files. `rename p q` puts the file of `p` in the place of `q`. -/
inductive Change (π γ : Type*) where
  | access (p : π)
  | write (p : π) (c : γ)
  | create (p : π) (c : γ)
  | delete (p : π)
  | link (p q : π)
  | rename (p q : π)

namespace Files

variable {π γ : Type*}

def read (f : Files π γ) (p : π) : Option γ := (f.inode p).map f.content

variable [DecidableEq π]

/-- The path names the inode, or nothing. -/
def put (f : Files π γ) (p : π) (i : Option Nat) (h : ∀ j, i = some j → j < f.next) :
    Files π γ :=
  { f with
    inode := Function.update f.inode p i
    fresh := by
      intro q j hq
      by_cases hp : q = p
      · subst hp
        rw [Function.update_self] at hq
        exact h j hq
      · rw [Function.update_of_ne hp] at hq
        exact f.fresh q j hq }

def unlink (f : Files π γ) (p : π) : Files π γ :=
  match f.inode p with
  | none => f
  | some i =>
    { f.put p none nofun with links := Function.update f.links i (f.links i - 1) }

def write (f : Files π γ) (p : π) (c : γ) : Files π γ :=
  match f.inode p with
  | none => f
  | some i => { f with content := Function.update f.content i c }

/-- A new inode, where there is no file. -/
def create (f : Files π γ) (p : π) (c : γ) : Files π γ :=
  match f.inode p with
  | some _ => f
  | none =>
    { inode := Function.update f.inode p (some f.next)
      links := Function.update f.links f.next 1
      content := Function.update f.content f.next c
      next := f.next + 1
      fresh := by
        intro q j hq
        by_cases hp : q = p
        · subst hp
          rw [Function.update_self, Option.some.injEq] at hq
          exact hq ▸ Nat.lt_succ_self _
        · rw [Function.update_of_ne hp] at hq
          exact Nat.lt_succ_of_lt (f.fresh q j hq) }

def link (f : Files π γ) (p q : π) : Files π γ :=
  match h : f.inode p, f.inode q with
  | some i, none =>
    { f.put q (some i) (fun j hj => f.fresh p j (h.trans hj)) with
      links := Function.update f.links i (f.links i + 1) }
  | _, _ => f

theorem next_unlink (f : Files π γ) (p : π) : (f.unlink p).next = f.next := by
  rw [unlink]
  split <;> rfl

/-- Two paths of one inode stay what they are. -/
def rename (f : Files π γ) (p q : π) : Files π γ :=
  match h : f.inode p with
  | none => f
  | some i =>
    if f.inode q = some i then f
    else
      ((f.unlink q).put q (some i) fun j hj => by
        rw [next_unlink]
        exact f.fresh p j (h.trans hj)).put p none nofun

def apply (f : Files π γ) : Change π γ → Files π γ
  | .access _ => f
  | .write p c => f.write p c
  | .create p c => f.create p c
  | .delete p => f.unlink p
  | .link p q => f.link p q
  | .rename p q => f.rename p q

end Files

/-! ### Watches -/

inductive Mask where
  | access
  | modify
  | attrib
  | close
  | opened
  | movedFrom
  | movedTo
  | create
  | delete
  | deleteSelf
  | moveSelf
  | unmount
  | qOverflow
  | ignored
  deriving DecidableEq

structure Event where
  wd : Nat
  mask : Mask
  deriving DecidableEq

structure Watch where
  inode : Nat
  wd : Nat

/-- `nextWd` is a descriptor that was not given yet. -/
structure Instance where
  isOpen : Bool
  watches : List Watch
  nextWd : Nat
  queue : List Event

namespace Instance

def init : Instance := ⟨true, [], 1, []⟩

/-- The descriptor of the watch on an inode. -/
def watchOf (n : Instance) (i : Nat) : Option Nat :=
  (n.watches.find? fun w => w.inode = i).map Watch.wd

/-- An inode that is watched keeps its descriptor. -/
def addWatch (n : Instance) (i : Nat) : Nat × Instance :=
  match n.watchOf i with
  | some wd => (wd, n)
  | none => (n.nextWd, { n with
      watches := n.watches ++ [⟨i, n.nextWd⟩]
      nextWd := n.nextWd + 1 })

def rmWatch (n : Instance) (wd : Nat) : Instance :=
  if n.watches.any (fun w => w.wd = wd) then
    { n with
      watches := n.watches.filter fun w => w.wd ≠ wd
      queue := n.queue ++ [⟨wd, .ignored⟩] }
  else n

/-- All that was queued is taken. -/
def read (n : Instance) : Instance := { n with queue := [] }

def close (n : Instance) : Instance := { n with isOpen := false, watches := [], queue := [] }

def notify (n : Instance) (i : Nat) (masks : List Mask) : Instance :=
  match n.watchOf i with
  | none => n
  | some wd => { n with queue := n.queue ++ masks.map fun mask => ⟨wd, mask⟩ }

/-- The last path of an inode goes, and the watch with it. -/
def destroyed (n : Instance) (i : Nat) : Instance :=
  let n' := n.notify i [.attrib, .deleteSelf, .ignored]
  { n' with watches := n'.watches.filter fun w => w.inode ≠ i }

section Observe

variable {π γ : Type*}

def unlinked (n : Instance) (f : Files π γ) (p : π) : Instance :=
  match f.inode p with
  | none => n
  | some i => if f.links i ≤ 1 then n.destroyed i else n.notify i [.attrib]

/-- What a change of the files queues. -/
def observe (n : Instance) (f : Files π γ) : Change π γ → Instance
  | .access p => (f.inode p).elim n fun i => n.notify i [.opened, .access, .close]
  | .write p _ => (f.inode p).elim n fun i => n.notify i [.modify]
  | .create _ _ => n
  | .delete p => n.unlinked f p
  | .link p q => if f.inode q = none then (f.inode p).elim n fun i => n.notify i [.attrib] else n
  | .rename p q => (f.inode p).elim n fun i =>
      if f.inode q = some i then n else (n.unlinked f q).notify i [.moveSelf]

end Observe

/-! #### What is queued stays queued -/

theorem prefix_notify (n : Instance) (i : Nat) (masks : List Mask) :
    n.queue <+: (n.notify i masks).queue := by
  rw [notify]
  split
  · exact List.prefix_rfl
  · exact List.prefix_append _ _

theorem queue_notify {n : Instance} {i wd : Nat} (h : n.watchOf i = some wd) (masks : List Mask) :
    (n.notify i masks).queue = n.queue ++ masks.map fun mask => ⟨wd, mask⟩ := by
  rw [notify, h]

theorem prefix_unlinked {π γ : Type*} (n : Instance) (f : Files π γ) (p : π) :
    n.queue <+: (n.unlinked f p).queue := by
  rw [unlinked]
  split
  · exact List.prefix_rfl
  · split
    · exact prefix_notify _ _ _
    · exact prefix_notify _ _ _

theorem prefix_elim {n : Instance} {g : Nat → Instance} (h : ∀ i, n.queue <+: (g i).queue) :
    ∀ o : Option Nat, n.queue <+: (o.elim n g).queue
  | none => List.prefix_rfl
  | some i => h i

theorem prefix_observe {π γ : Type*} (n : Instance) (f : Files π γ) (ch : Change π γ) :
    n.queue <+: (n.observe f ch).queue := by
  cases ch with
  | access p => exact prefix_elim (fun i => prefix_notify n i _) _
  | write p c => exact prefix_elim (fun i => prefix_notify n i _) _
  | create p c => exact List.prefix_rfl
  | delete p => exact prefix_unlinked n f p
  | link p q =>
    rw [observe]
    split
    · exact prefix_elim (fun i => prefix_notify n i _) _
    · exact List.prefix_rfl
  | rename p q =>
    refine prefix_elim (fun i => ?_) _
    split
    · exact List.prefix_rfl
    · exact (prefix_unlinked n f q).trans (prefix_notify _ i _)

/-- A write to a watched inode. -/
theorem queue_observe_write {π γ : Type*} {n : Instance} {f : Files π γ} {p : π} {i wd : Nat}
    (hinode : f.inode p = some i) (hwatch : n.watchOf i = some wd) (c : γ) :
    (n.observe f (.write p c)).queue = n.queue ++ [⟨wd, .modify⟩] := by
  rw [observe, hinode]
  exact queue_notify hwatch _

theorem prefix_rmWatch (n : Instance) (wd : Nat) : n.queue <+: (n.rmWatch wd).queue := by
  rw [rmWatch]
  split
  · exact List.prefix_append _ _
  · exact List.prefix_rfl

@[simp] theorem queue_addWatch (n : Instance) (i : Nat) : (n.addWatch i).2.queue = n.queue := by
  rw [addWatch]
  split <;> rfl

/-! #### Descriptors -/

theorem watchOf_addWatch (n : Instance) (i j : Nat) :
    (n.addWatch i).2.watchOf j =
      (n.watchOf j).or (if i = j then some (n.addWatch i).1 else none) := by
  rw [addWatch]
  cases hi : n.watchOf i with
  | some wd =>
    by_cases hij : i = j
    · simp [← hij, hi]
    · simp [hij]
  | none =>
    simp only [watchOf, List.find?_append, Option.map_or]
    congr 1
    by_cases hij : i = j
    · simp [hij]
    · simp [hij]

theorem watchOf_addWatch_self (n : Instance) (i : Nat) :
    (n.addWatch i).2.watchOf i = some (n.addWatch i).1 := by
  rw [watchOf_addWatch, if_pos rfl, addWatch]
  cases hi : n.watchOf i <;> rfl

theorem watchOf_addWatch_of_eq_some {n : Instance} {j wd : Nat} (h : n.watchOf j = some wd)
    (i : Nat) : (n.addWatch i).2.watchOf j = some wd := by
  rw [watchOf_addWatch, h, Option.some_or]

/-- No two watches have one descriptor, and the next one is that of none. -/
structure Numbered (n : Instance) : Prop where
  nodup : (n.watches.map Watch.wd).Nodup
  lt : ∀ w ∈ n.watches, w.wd < n.nextWd

theorem numbered_init : Numbered init := ⟨List.nodup_nil, nofun⟩

theorem Numbered.addWatch {n : Instance} (h : n.Numbered) (i : Nat) : (n.addWatch i).2.Numbered := by
  rw [Instance.addWatch]
  split
  · exact h
  · refine ⟨?_, fun w hw => ?_⟩
    · have hnew : n.nextWd ∉ n.watches.map Watch.wd := by
        intro hmem
        obtain ⟨w, hw, hwd⟩ := List.mem_map.mp hmem
        exact Nat.ne_of_lt (h.lt w hw) hwd
      rw [List.map_append, List.map_singleton, ← List.concat_eq_append]
      exact List.Nodup.concat hnew h.nodup
    · rcases List.mem_append.mp hw with hw | hw
      · exact Nat.lt_succ_of_lt (h.lt w hw)
      · rw [List.mem_singleton.mp hw]
        exact Nat.lt_succ_self _

end Instance

end Inotify
