import Sihd.Lib.SlotTable
import Sihd.Lib.Transition
import Mathlib.Tactic.Ring

/-!
# The table of a poll

A table has a slot for each descriptor that it polls; a slot of descriptor `-1`
is free. Slots are looked up by descriptor, taken when they are free and added
up to a limit. The interests are the map that the operations stand for.
-/

namespace Sihd.Sys

def pollIn : BitVec 16 := 0x1#16

def pollPri : BitVec 16 := 0x2#16

def pollOut : BitVec 16 := 0x4#16

structure PollFd where
  fd : Int
  events : BitVec 16
  deriving DecidableEq

structure Poll where
  maxFds : Nat
  lstFds : List PollFd
  deriving DecidableEq

namespace Poll

def getFdIndex (lstFds : List PollFd) (fd : Int) : Option Nat :=
  if fd < 0 then none else lstFds.findIdx? fun p => p.fd = fd

/-- The slot of a descriptor, else the first one that is free, else a new one. -/
def getOrAddFd (lstFds : List PollFd) (fd : Int) (maxFds : Nat) : List PollFd × Option Nat :=
  if fd < 0 then (lstFds, none)
  else
    match lstFds.findIdx? fun p => p.fd = fd with
    | some i => (lstFds, some i)
    | none =>
        match lstFds.findIdx? fun p => p.fd = -1 with
        | some i => (lstFds, some i)
        | none =>
            if lstFds.length < maxFds then (lstFds ++ [⟨-1, 0⟩], some lstFds.length)
            else (lstFds, none)

/-- The slot that is got for a descriptor, changed. -/
def change (p : Poll) (fd : Int) (f : PollFd → PollFd) : Poll × Bool :=
  match getOrAddFd p.lstFds fd p.maxFds with
  | (lstFds, some i) => ({ p with lstFds := lstFds.modify i f }, true)
  | (lstFds, none) => ({ p with lstFds := lstFds }, false)

def create (limit : Nat) : Poll := ⟨limit, []⟩

def resize (p : Poll) (nfds : Int) : Poll :=
  if nfds < 0 then p else { p with lstFds := List.replicate nfds.toNat ⟨-1, 0⟩ }

def clearFds (p : Poll) : Poll := { p with lstFds := [] }

def clearFd (p : Poll) (fd : Int) : Poll × Bool :=
  match getFdIndex p.lstFds fd with
  | some i => ({ p with lstFds := p.lstFds.modify i fun _ => ⟨-1, 0⟩ }, true)
  | none => (p, false)

def readFdsSize (p : Poll) : Nat :=
  (p.lstFds.map fun s => 1 * (s.events &&& (pollIn ||| pollPri)).toNat).sum

def writeFdsSize (p : Poll) : Nat :=
  (p.lstFds.map fun s => 1 * (s.events &&& pollOut).toNat).sum

def setReadFd (p : Poll) (fd : Int) : Poll × Bool :=
  p.change fd fun s => ⟨fd, s.events ||| pollIn⟩

def setWriteFd (p : Poll) (fd : Int) : Poll × Bool :=
  p.change fd fun s => ⟨fd, s.events ||| pollOut⟩

def rmReadFd (p : Poll) (fd : Int) : Poll × Bool :=
  p.change fd fun s => { s with events := s.events &&& ~~~pollIn }

def rmWriteFd (p : Poll) (fd : Int) : Poll × Bool :=
  p.change fd fun s => { s with events := s.events &&& ~~~pollOut }

inductive Op where
  | setReadFd (fd : Int)
  | setWriteFd (fd : Int)
  | rmReadFd (fd : Int)
  | rmWriteFd (fd : Int)
  | clearFd (fd : Int)
  | clearFds
  | resize (nfds : Int)

def apply (p : Poll) : Op → Poll × Bool
  | .setReadFd fd => p.setReadFd fd
  | .setWriteFd fd => p.setWriteFd fd
  | .rmReadFd fd => p.rmReadFd fd
  | .rmWriteFd fd => p.rmWriteFd fd
  | .clearFd fd => p.clearFd fd
  | .clearFds => (p.clearFds, true)
  | .resize nfds => (p.resize nfds, true)

/-! ### Interests -/

/-- What is asked of a descriptor. -/
@[ext]
structure Interest where
  read : Bool
  write : Bool
  deriving DecidableEq

namespace Interest

def nothing : Interest := ⟨false, false⟩

def any (i : Interest) : Bool := i.read || i.write

def events (i : Interest) : BitVec 16 :=
  (if i.read then pollIn else 0) ||| (if i.write then pollOut else 0)

end Interest

/-- The map after an operation. A set that is refused leaves it as it is. -/
def Op.map (m : Int → Interest) (accepted : Bool) : Op → Int → Interest
  | .setReadFd fd => if accepted then Function.update m fd { m fd with read := true } else m
  | .setWriteFd fd => if accepted then Function.update m fd { m fd with write := true } else m
  | .rmReadFd fd => Function.update m fd { m fd with read := false }
  | .rmWriteFd fd => Function.update m fd { m fd with write := false }
  | .clearFd fd => Function.update m fd .nothing
  | .clearFds => fun _ => .nothing
  | .resize nfds => if nfds < 0 then m else fun _ => .nothing

/-- The table represents the map. -/
structure Refines (p : Poll) (m : Int → Interest) : Prop where
  once : ((p.lstFds.filter fun s => 0 ≤ s.fd).map PollFd.fd).Nodup
  polled : ∀ fd events, (⟨fd, events⟩ ∈ p.lstFds ∧ 0 ≤ fd) ↔
    (m fd).any = true ∧ events = (m fd).events
  readSize : p.readFdsSize = Set.ncard {fd | (m fd).read = true}
  writeSize : p.writeFdsSize = Set.ncard {fd | (m fd).write = true}
  readRefused : ∀ fd, 0 ≤ fd → (p.setReadFd fd).2 = false →
    Set.ncard {g | g ≠ fd ∧ (m g).any = true} = p.maxFds
  writeRefused : ∀ fd, 0 ≤ fd → (p.setWriteFd fd).2 = false →
    Set.ncard {g | g ≠ fd ∧ (m g).any = true} = p.maxFds

/-- There is a slot of the descriptor or a free one, or room for a new one. -/
def HasRoom (p : Poll) (fd : Int) : Prop :=
  (∃ s ∈ p.lstFds, s.fd = fd ∨ s.fd = -1) ∨ p.lstFds.length < p.maxFds

/-- A table and the map of the operations on it. -/
structure Session where
  poll : Poll
  interests : Int → Interest

namespace Session

def create (limit : Nat) : Session := ⟨Poll.create limit, fun _ => .nothing⟩

def step (s : Session) (op : Op) : Option Session :=
  let (poll, accepted) := s.poll.apply op
  some ⟨poll, op.map s.interests accepted⟩

/-- The operation removes an interest of a descriptor that has none. -/
def RemovesAbsent (s : Session) : Op → Prop
  | .rmReadFd fd => (s.interests fd).any = false
  | .rmWriteFd fd => (s.interests fd).any = false
  | _ => False

/-- A step after which the table represents the map. -/
def IsFaithful (s : Session) (op : Op) (s' : Session) : Prop :=
  s'.poll.Refines s'.interests ∧ (s.RemovesAbsent op → s'.poll = s.poll)

/-- The removal leaves a descriptor that has an interest with another one, or
needs no new slot for one that has none. -/
def KeepsSlots (s : Session) (fd : Int) (rest : Interest) : Prop :=
  ((s.interests fd).any = true → rest.any = true) ∧
    ((s.interests fd).any = false →
      fd < 0 ∨ (∃ t ∈ s.poll.lstFds, t.fd = -1) ∨ s.poll.maxFds ≤ s.poll.lstFds.length)

/-- The operation is no set of a write interest that finds room, and a removal
keeps the slots. -/
def IsHarmless (s : Session) : Op → Prop
  | .setWriteFd fd => fd < 0 ∨ ¬ s.poll.HasRoom fd
  | .rmReadFd fd => s.KeepsSlots fd { s.interests fd with read := false }
  | .rmWriteFd fd => s.KeepsSlots fd { s.interests fd with write := false }
  | _ => True

end Session

/-- The table is not resized beyond its limit. -/
def Op.WithinLimit (limit : Nat) : Op → Prop
  | .resize nfds => nfds ≤ limit
  | _ => True

/-! ### What a table tracks -/

/-- The entry of a slot. -/
def slotOf (s : PollFd) : Option (Int × BitVec 16) :=
  if 0 ≤ s.fd then some (s.fd, s.events) else none

/-- A table with the events of its descriptors, some of which may have none. -/
structure Tracks (p : Poll) (m : Int → Interest) (polled : Int → Option (BitVec 16)) : Prop where
  represents : SlotTable.Represents (p.lstFds.map slotOf) polled
  free : ∀ s ∈ p.lstFds, s.fd < 0 → s = ⟨-1, 0⟩
  events : ∀ fd e, polled fd = some e → e = (m fd).events
  absent : ∀ fd, polled fd = none → m fd = .nothing
  length_le : p.lstFds.length ≤ p.maxFds

variable {p : Poll} {m : Int → Interest} {polled : Int → Option (BitVec 16)} {fd : Int}

theorem mem_slotOf_iff {l : List PollFd} {e : BitVec 16} :
    some (fd, e) ∈ l.map slotOf ↔ ⟨fd, e⟩ ∈ l ∧ 0 ≤ fd := by
  rw [List.mem_map]
  constructor
  · rintro ⟨s, hs, heq⟩
    rw [slotOf] at heq
    split at heq
    · next hfd =>
      obtain ⟨rfl, rfl⟩ := Prod.mk.inj (Option.some.inj heq)
      exact ⟨hs, hfd⟩
    · cases heq
  · rintro ⟨hs, hfd⟩
    exact ⟨_, hs, if_pos hfd⟩

theorem Tracks.mem_iff (h : Tracks p m polled) {e : BitVec 16} :
    ⟨fd, e⟩ ∈ p.lstFds ∧ 0 ≤ fd ↔ polled fd = some e := by
  rw [← mem_slotOf_iff, h.represents.mem_iff]

theorem Tracks.eq_none (h : Tracks p m polled)
    (hfind : p.lstFds.findIdx? (fun s => s.fd = fd) = none) : polled fd = none := by
  refine Option.eq_none_iff_forall_not_mem.mpr fun e he => ?_
  have hs := List.findIdx?_eq_none_iff.mp hfind _ (h.mem_iff.mpr he).1
  simp at hs

/-- What can come of looking for the slot of a descriptor and changing it. -/
inductive Got (p : Poll) (polled : Int → Option (BitVec 16)) (fd : Int)
    (f : PollFd → PollFd) : Poll × Bool → Prop
  | found {l₁ l₂ : List PollFd} {e : BitVec 16} (hl : p.lstFds = l₁ ++ ⟨fd, e⟩ :: l₂) :
      Got p polled fd f ({ p with lstFds := l₁ ++ f ⟨fd, e⟩ :: l₂ }, true)
  | free {l₁ l₂ : List PollFd} (hl : p.lstFds = l₁ ++ ⟨-1, 0⟩ :: l₂) (hnone : polled fd = none) :
      Got p polled fd f ({ p with lstFds := l₁ ++ f ⟨-1, 0⟩ :: l₂ }, true)
  | added (hall : ∀ s ∈ p.lstFds, 0 ≤ s.fd) (hnone : polled fd = none)
      (hlt : p.lstFds.length < p.maxFds) :
      Got p polled fd f ({ p with lstFds := p.lstFds ++ [f ⟨-1, 0⟩] }, true)
  | refused (hall : ∀ s ∈ p.lstFds, 0 ≤ s.fd) (hnone : polled fd = none)
      (hle : p.maxFds ≤ p.lstFds.length) : Got p polled fd f (p, false)

theorem exists_of_findIdx? {α : Type*} {q : α → Bool} {l : List α} {i : Nat}
    (h : l.findIdx? q = some i) :
    ∃ l₁ s l₂, l = l₁ ++ s :: l₂ ∧ q s = true ∧ i = l₁.length := by
  obtain ⟨hi, hq, -⟩ := List.findIdx?_eq_some_iff_getElem.mp h
  refine ⟨l.take i, l[i], l.drop (i + 1), ?_, hq, ?_⟩
  · rw [List.cons_getElem_drop_succ, List.take_append_drop]
  · rw [List.length_take, Nat.min_eq_left hi.le]

theorem modify_append_cons {α : Type*} (l₁ l₂ : List α) (s : α) (f : α → α) :
    (l₁ ++ s :: l₂).modify l₁.length f = l₁ ++ f s :: l₂ := by
  induction l₁ with
  | nil => rfl
  | cons a l₁ ih => rw [List.cons_append, List.length_cons, List.modify_succ_cons, ih]; rfl

theorem change_of_neg (hfd : fd < 0) (f : PollFd → PollFd) : p.change fd f = (p, false) := by
  rw [change, getOrAddFd, if_pos hfd]

theorem Tracks.got (h : Tracks p m polled) (hfd : 0 ≤ fd) (f : PollFd → PollFd) :
    Got p polled fd f (p.change fd f) := by
  rw [change, getOrAddFd, if_neg (not_lt.mpr hfd)]
  cases hfind : p.lstFds.findIdx? fun s => s.fd = fd with
  | some i =>
    obtain ⟨l₁, ⟨fd', e⟩, l₂, hl, hs, rfl⟩ := exists_of_findIdx? hfind
    obtain rfl : fd' = fd := of_decide_eq_true hs
    dsimp only
    rw [hl, modify_append_cons]
    exact .found hl
  | none =>
    have hnone : polled fd = none := h.eq_none hfind
    cases hfree : p.lstFds.findIdx? fun s => s.fd = -1 with
    | some i =>
      obtain ⟨l₁, s, l₂, hl, hs, rfl⟩ := exists_of_findIdx? hfree
      have hs' : s.fd = -1 := of_decide_eq_true hs
      obtain rfl : s = ⟨-1, 0⟩ := h.free s (by simp [hl]) (by omega)
      dsimp only
      rw [hl, modify_append_cons]
      exact .free hl hnone
    | none =>
      have hall : ∀ s ∈ p.lstFds, 0 ≤ s.fd := fun s hs => by
        by_contra hneg
        have hfd := List.findIdx?_eq_none_iff.mp hfree s hs
        rw [h.free s hs (by omega)] at hfd
        cases hfd
      by_cases hlt : p.lstFds.length < p.maxFds
      · have hmod := modify_append_cons p.lstFds [] ⟨-1, 0⟩ f
        dsimp only
        rw [if_pos hlt]
        dsimp only
        rw [hmod]
        exact .added hall hnone hlt
      · dsimp only
        rw [if_neg hlt]
        exact .refused hall hnone (not_lt.mp hlt)

/-- A slot of the descriptor or a free one, written with an interest or freed. -/
theorem Tracks.replace {l₁ l₂ : List PollFd} {s : PollFd} (h : Tracks p m polled)
    (hl : p.lstFds = l₁ ++ s :: l₂) (hfd : 0 ≤ fd)
    (hs : s.fd = fd ∨ s = ⟨-1, 0⟩ ∧ polled fd = none) (i : Option Interest) :
    Tracks { p with lstFds := l₁ ++ i.elim ⟨-1, 0⟩ (fun i => ⟨fd, i.events⟩) :: l₂ }
      (Function.update m fd (i.getD .nothing))
      (Function.update polled fd (i.map Interest.events)) where
  represents := by
    have hslots : SlotTable.Represents (l₁.map slotOf ++ slotOf s :: l₂.map slotOf) polled := by
      rw [← List.map_cons, ← List.map_append, ← hl]
      exact h.represents
    have hreplace := hslots.replace (k := fd)
      (fun e he => by
        rcases hs with rfl | ⟨rfl, -⟩
        · rw [slotOf, if_pos hfd] at he
          rw [← Option.some.inj he]
        · cases he)
      (fun hnone => by
        rcases hs with rfl | ⟨-, hs⟩
        · rw [slotOf, if_pos hfd] at hnone
          cases hnone
        · exact hs)
      (i.map Interest.events)
    rw [List.map_append, List.map_cons]
    cases i with
    | none => exact hreplace
    | some i =>
      have hslot : slotOf ⟨fd, i.events⟩ = some (fd, i.events) := if_pos hfd
      dsimp only [Option.elim_some]
      rw [hslot]
      exact hreplace
  free := fun t ht hneg => by
    rcases List.mem_append.mp ht with ht | ht
    · exact h.free t (by rw [hl]; exact List.mem_append_left _ ht) hneg
    · rcases List.mem_cons.mp ht with rfl | ht
      · cases i with
        | none => rfl
        | some i => exact absurd hneg (not_lt.mpr hfd)
      · exact h.free t (by rw [hl]; exact List.mem_append_right _ (List.mem_cons_of_mem _ ht)) hneg
  events := fun g e he => by
    by_cases hg : g = fd
    · subst hg
      rw [Function.update_self] at he ⊢
      obtain ⟨i, rfl, rfl⟩ := Option.map_eq_some_iff.mp he
      rfl
    · rw [Function.update_of_ne hg] at he ⊢
      exact h.events g e he
  absent := fun g hg' => by
    by_cases hg : g = fd
    · subst hg
      rw [Function.update_self] at hg' ⊢
      rw [Option.map_eq_none_iff.mp hg', Option.getD_none]
    · rw [Function.update_of_ne hg] at hg' ⊢
      exact h.absent g hg'
  length_le := by
    have hle := h.length_le
    rw [hl, List.length_append, List.length_cons] at hle
    rw [List.length_append, List.length_cons]
    exact hle

theorem Tracks.extend (h : Tracks p m polled) (hlt : p.lstFds.length < p.maxFds) :
    Tracks { p with lstFds := p.lstFds ++ [⟨-1, 0⟩] } m polled where
  represents := by
    rw [List.map_append]
    exact h.represents.extend
  free := fun s hs hneg => by
    rcases List.mem_append.mp hs with hs | hs
    · exact h.free s hs hneg
    · exact List.mem_singleton.mp hs
  events := h.events
  absent := h.absent
  length_le := by
    rw [List.length_append, List.length_singleton]
    exact hlt

/-- An interest is added, or the table is full and stays as it is. -/
theorem Tracks.set (h : Tracks p m polled) (hfd : 0 ≤ fd) (bit : BitVec 16)
    (set : Interest → Interest) (hset : ∀ i, (set i).events = i.events ||| bit) :
    ((p.change fd fun s => ⟨fd, s.events ||| bit⟩).2 = true ∧
        Tracks (p.change fd fun s => ⟨fd, s.events ||| bit⟩).1
          (Function.update m fd (set (m fd)))
          (Function.update polled fd (some (set (m fd)).events))) ∨
      (p.change fd fun s => ⟨fd, s.events ||| bit⟩) = (p, false) ∧
        (∀ s ∈ p.lstFds, 0 ≤ s.fd) ∧ polled fd = none ∧ p.maxFds ≤ p.lstFds.length := by
  have hempty : polled fd = none → (set (m fd)).events = 0 ||| bit := fun hnone => by
    rw [hset, h.absent fd hnone]
    rfl
  cases hchange : p.change fd fun s => ⟨fd, s.events ||| bit⟩ with
  | mk p' ret =>
    have hgot := h.got hfd fun s => ⟨fd, s.events ||| bit⟩
    rw [hchange] at hgot
    cases hgot with
    | @found l₁ l₂ e hl =>
      left
      have he : e = (m fd).events := h.events fd e (h.mem_iff.mp ⟨by simp [hl], hfd⟩)
      have hreplace := h.replace hl hfd (.inl rfl) (some (set (m fd)))
      rw [Option.elim_some, hset, ← he] at hreplace
      refine ⟨rfl, ?_⟩
      rw [hset, ← he]
      rw [Option.map_some, hset, ← he] at hreplace
      exact hreplace
    | @free l₁ l₂ hl hnone =>
      left
      have hreplace := h.replace hl hfd (.inr ⟨rfl, hnone⟩) (some (set (m fd)))
      rw [Option.elim_some, Option.map_some, hempty hnone] at hreplace
      refine ⟨rfl, ?_⟩
      rw [hempty hnone]
      exact hreplace
    | added hall hnone hlt =>
      left
      have hreplace := (h.extend hlt).replace rfl hfd (.inr ⟨rfl, hnone⟩) (some (set (m fd)))
      rw [Option.elim_some, Option.map_some, hempty hnone] at hreplace
      refine ⟨rfl, ?_⟩
      rw [hempty hnone]
      exact hreplace
    | refused hall hnone hle => exact .inr ⟨rfl, hall, hnone, hle⟩

/-- An interest of a descriptor that has a slot is removed, and the slot stays. -/
theorem Tracks.remove (h : Tracks p m polled) (hfd : 0 ≤ fd) {bit : BitVec 16}
    {remove : Interest → Interest} (hremove : ∀ i, (remove i).events = i.events &&& ~~~bit)
    (hsome : polled fd ≠ none) :
    Tracks (p.change fd fun s => { s with events := s.events &&& ~~~bit }).1
      (Function.update m fd (remove (m fd)))
      (Function.update polled fd (some (remove (m fd)).events)) := by
  cases hchange : p.change fd fun s => { s with events := s.events &&& ~~~bit } with
  | mk p' ret =>
    have hgot := h.got hfd fun s => { s with events := s.events &&& ~~~bit }
    rw [hchange] at hgot
    cases hgot with
    | @found l₁ l₂ e hl =>
      have he : e = (m fd).events := h.events fd e (h.mem_iff.mp ⟨by simp [hl], hfd⟩)
      have hreplace := h.replace hl hfd (.inl rfl) (some (remove (m fd)))
      rw [Option.elim_some, Option.map_some, hremove, ← he] at hreplace
      rw [hremove, ← he]
      exact hreplace
    | free hl hnone => exact absurd hnone hsome
    | added hall hnone hlt => exact absurd hnone hsome
    | refused hall hnone hle => exact absurd hnone hsome

/-- An interest of a descriptor that has no slot is removed. A free slot is
added when there is none and the limit allows it. -/
theorem Tracks.remove_none (h : Tracks p m polled) (hfd : 0 ≤ fd) (bit : BitVec 16)
    (hnone : polled fd = none) :
    Tracks (p.change fd fun s => { s with events := s.events &&& ~~~bit }).1 m polled ∧
      ((p.change fd fun s => { s with events := s.events &&& ~~~bit }).1 = p ↔
        (∃ s ∈ p.lstFds, s.fd = -1) ∨ p.maxFds ≤ p.lstFds.length) := by
  have hzero : ((0 : BitVec 16) &&& ~~~bit) = 0 := BitVec.zero_and
  cases hchange : p.change fd fun s => { s with events := s.events &&& ~~~bit } with
  | mk p' ret =>
    have hgot := h.got hfd fun s => { s with events := s.events &&& ~~~bit }
    rw [hchange] at hgot
    cases hgot with
    | @found l₁ l₂ e hl =>
      have hmem : ⟨fd, e⟩ ∈ p.lstFds := by simp [hl]
      have he := h.mem_iff.mp ⟨hmem, hfd⟩
      rw [hnone] at he
      cases he
    | @free l₁ l₂ hl =>
      have hsame : { p with lstFds := l₁ ++ ⟨-1, (0 : BitVec 16) &&& ~~~bit⟩ :: l₂ } = p := by
        rw [hzero, ← hl]
      refine ⟨hsame ▸ h, iff_of_true hsame (.inl ⟨⟨-1, 0⟩, by simp [hl], rfl⟩)⟩
    | added hall _ hlt =>
      dsimp only
      rw [hzero]
      refine ⟨h.extend hlt, iff_of_false (fun heq => ?_) ?_⟩
      · have hlen := congrArg (fun p => p.lstFds.length) heq
        simp at hlen
      · rintro (⟨s, hs, hneg⟩ | hle)
        · have hpos := hall s hs
          omega
        · omega
    | refused hall _ hle => exact ⟨h, iff_of_true rfl (.inr hle)⟩

theorem Tracks.clear (h : Tracks p m polled) (fd : Int) :
    ∃ polled', Tracks (p.clearFd fd).1 (Function.update m fd .nothing) polled' ∧
      ∀ g e, polled' g = some e → polled g = some e := by
  have hnone : polled fd = none → Tracks p (Function.update m fd .nothing) polled := fun hnone => by
    rw [← h.absent fd hnone, Function.update_eq_self]
    exact h
  rw [clearFd, getFdIndex]
  by_cases hfd : fd < 0
  · rw [if_pos hfd]
    have hnone' : polled fd = none :=
      Option.eq_none_iff_forall_not_mem.mpr fun e he => by
        have hpos := (h.mem_iff.mpr he).2
        omega
    exact ⟨polled, hnone hnone', fun _ _ he => he⟩
  · rw [if_neg hfd]
    cases hfind : p.lstFds.findIdx? fun s => s.fd = fd with
    | some i =>
      obtain ⟨l₁, s, l₂, hl, hs, rfl⟩ := exists_of_findIdx? hfind
      have hreplace := h.replace hl (not_lt.mp hfd) (.inl (of_decide_eq_true hs)) none
      refine ⟨Function.update polled fd none, ?_, fun g e he => ?_⟩
      · dsimp only
        rw [hl, modify_append_cons]
        exact hreplace
      · by_cases hg : g = fd
        · rw [hg, Function.update_self] at he
          cases he
        · rwa [Function.update_of_ne hg] at he
    | none => exact ⟨polled, hnone (h.eq_none hfind), fun _ _ he => he⟩

theorem tracks_create (limit : Nat) :
    Tracks (create limit) (fun _ => .nothing) fun _ => none where
  represents := SlotTable.represents_nil
  free := fun s hs => absurd hs List.not_mem_nil
  events := fun _ _ he => by cases he
  absent := fun _ _ => rfl
  length_le := Nat.zero_le _

theorem tracks_replicate {n : Nat} (hn : n ≤ p.maxFds) :
    Tracks { p with lstFds := List.replicate n ⟨-1, 0⟩ } (fun _ => .nothing) fun _ => none where
  represents := by
    rw [List.map_replicate]
    exact SlotTable.represents_replicate n
  free := fun s hs _ => (List.mem_replicate.mp hs).2
  events := fun _ _ he => by cases he
  absent := fun _ _ => rfl
  length_le := by
    rw [List.length_replicate]
    exact hn

/-! ### When the table represents the map -/

theorem Interest.events_eq_zero_iff (i : Interest) : i.events = 0 ↔ i.any = false := by
  obtain ⟨read, write⟩ := i
  cases read <;> cases write <;> decide

theorem setOf_eq_polled (h : Tracks p m polled) {get : Interest → Bool} {q : BitVec 16 → Bool}
    (hq : ∀ i : Interest, q i.events = get i) (hnothing : get .nothing = false) :
    {fd | get (m fd) = true} = {fd | ∃ e, polled fd = some e ∧ q e = true} := by
  ext fd
  constructor
  · intro hget
    cases he : polled fd with
    | none =>
      rw [Set.mem_ofPred_eq, h.absent fd he, hnothing] at hget
      cases hget
    | some e => exact ⟨e, he, by rw [h.events fd e he, hq]; exact hget⟩
  · rintro ⟨e, he, hqe⟩
    rwa [h.events fd e he, hq] at hqe

theorem sum_eq_countP {l : List PollFd} {mask : BitVec 16} {c : Nat}
    (h : ∀ s ∈ l, (s.events &&& mask).toNat = if (s.events &&& mask) ≠ 0 then c else 0)
    (hfree : ∀ s ∈ l, s.fd < 0 → s = ⟨-1, 0⟩) :
    (l.map fun s => 1 * (s.events &&& mask).toNat).sum =
      c * (l.map slotOf).countP fun o => o.any fun e => (e.2 &&& mask) ≠ 0 := by
  induction l with
  | nil => rfl
  | cons s l ih =>
    rw [List.forall_mem_cons] at h hfree
    rw [List.map_cons, List.sum_cons, List.map_cons, List.countP_cons, ih h.2 hfree.2, h.1]
    by_cases hfd : 0 ≤ s.fd
    · rw [slotOf, if_pos hfd]
      by_cases hbit : (s.events &&& mask) ≠ 0
      · rw [if_pos hbit, if_pos (by simpa using hbit)]
        ring
      · rw [if_neg hbit, if_neg (by simpa using hbit)]
        ring
    · obtain rfl := hfree.1 (not_le.mp hfd)
      simp [slotOf]

/-- A sum of masked events counts each descriptor with the interest as often as
its bit says. -/
theorem Tracks.sum_eq (h : Tracks p m polled) (mask : BitVec 16) {c : Nat} (hc : 0 < c)
    (get : Interest → Bool) (hnothing : get .nothing = false)
    (hmask : ∀ i : Interest, (i.events &&& mask).toNat = if get i then c else 0) :
    (p.lstFds.map fun s => 1 * (s.events &&& mask).toNat).sum =
        c * Set.ncard {fd | get (m fd) = true} ∧
      {fd | get (m fd) = true}.Finite := by
  have hq : ∀ i : Interest, decide ((i.events &&& mask) ≠ 0) = get i := fun i => by
    have hi := hmask i
    rw [Bool.eq_iff_iff, decide_eq_true_iff, ne_eq, ← BitVec.toNat_inj, hi]
    split <;> simp_all
    omega
  have hevents : ∀ s ∈ p.lstFds,
      (s.events &&& mask).toNat = if (s.events &&& mask) ≠ 0 then c else 0 := fun s hs => by
    have hi : ∃ i : Interest, s.events = i.events := by
      by_cases hfd : 0 ≤ s.fd
      · exact ⟨_, h.events s.fd s.events (h.mem_iff.mp ⟨hs, hfd⟩)⟩
      · exact ⟨.nothing, by rw [h.free s hs (not_le.mp hfd)]; rfl⟩
    obtain ⟨i, hi⟩ := hi
    have hqi := hq i
    rw [hi, hmask]
    by_cases hget : get i = true
    · rw [hget, decide_eq_true_iff] at hqi
      rw [if_pos hget, if_pos hqi]
    · rw [Bool.not_eq_true] at hget
      rw [hget, decide_eq_false_iff_not] at hqi
      rw [hget, if_neg hqi]
      rfl
  have hncard := h.represents.ncard fun e => decide ((e &&& mask) ≠ 0)
  rw [setOf_eq_polled h (q := fun e => decide ((e &&& mask) ≠ 0)) hq hnothing,
    sum_eq_countP hevents h.free, hncard]
  exact ⟨rfl, h.represents.finite _⟩

theorem Tracks.once (h : Tracks p m polled) :
    ((p.lstFds.filter fun s => 0 ≤ s.fd).map PollFd.fd).Nodup := by
  have hnodup := h.represents.nodup
  suffices heq : (p.lstFds.map slotOf).reduceOption.map Prod.fst =
      (p.lstFds.filter fun s => 0 ≤ s.fd).map PollFd.fd by rwa [heq] at hnodup
  clear hnodup h
  induction p.lstFds with
  | nil => rfl
  | cons s l ih =>
    by_cases hfd : 0 ≤ s.fd
    · rw [List.map_cons, slotOf, if_pos hfd, List.reduceOption_cons_of_some, List.map_cons, ih,
        List.filter_cons_of_pos (by simpa using hfd), List.map_cons]
    · rw [List.map_cons, slotOf, if_neg hfd, List.reduceOption_cons_of_none, ih,
        List.filter_cons_of_neg (by simpa using hfd)]

/-- A full table without idle slots has as many descriptors as its limit. -/
theorem Tracks.ncard_others (h : Tracks p m polled) (hidle : ∀ fd, polled fd ≠ some 0)
    (hall : ∀ s ∈ p.lstFds, 0 ≤ s.fd) (hnone : polled fd = none)
    (hle : p.maxFds ≤ p.lstFds.length) :
    Set.ncard {g | g ≠ fd ∧ (m g).any = true} = p.maxFds := by
  have hset : {g | g ≠ fd ∧ (m g).any = true} = {g | ∃ e, polled g = some e ∧ true = true} := by
    ext g
    constructor
    · rintro ⟨-, hany⟩
      cases he : polled g with
      | none =>
        rw [h.absent g he] at hany
        cases hany
      | some e => exact ⟨e, he, rfl⟩
    · rintro ⟨e, he, -⟩
      refine ⟨fun heq => ?_, ?_⟩
      · rw [heq, hnone] at he
        cases he
      · have hne : e ≠ 0 := fun hzero => hidle g (hzero ▸ he)
        rw [h.events g e he, Ne, Interest.events_eq_zero_iff, Bool.not_eq_false] at hne
        exact hne
  have hcount : (p.lstFds.map slotOf).countP (fun o => o.any fun _ => true) = p.lstFds.length := by
    rw [List.countP_map, List.countP_eq_length]
    intro s hs
    rw [Function.comp_apply, slotOf, if_pos (hall s hs)]
    rfl
  rw [hset, h.represents.ncard fun _ => true, hcount]
  exact Nat.le_antisymm h.length_le hle

theorem Tracks.ncard_of_refused (h : Tracks p m polled) (hidle : ∀ fd, polled fd ≠ some 0)
    (hfd : 0 ≤ fd) {f : PollFd → PollFd} (hrefused : (p.change fd f).2 = false) :
    Set.ncard {g | g ≠ fd ∧ (m g).any = true} = p.maxFds := by
  cases hchange : p.change fd f with
  | mk p' ret =>
    have hgot := h.got hfd f
    rw [hchange] at hgot hrefused
    cases hgot with
    | found => cases hrefused
    | free => cases hrefused
    | added => cases hrefused
    | refused hall hnone hle => exact h.ncard_others hidle hall hnone hle

/-- A table represents its interests exactly when it has no slot without events
and no write interest. -/
theorem Tracks.refines_iff (h : Tracks p m polled) :
    p.Refines m ↔ (∀ fd, polled fd ≠ some 0) ∧ ∀ fd, (m fd).write = false := by
  have hread := h.sum_eq (pollIn ||| pollPri) Nat.one_pos Interest.read rfl fun i => by
      obtain ⟨read, write⟩ := i
      cases read <;> cases write <;> decide
  have hwrite := h.sum_eq pollOut (c := 4) (by omega) Interest.write rfl fun i => by
      obtain ⟨read, write⟩ := i
      cases read <;> cases write <;> decide
  have hwriteSize : p.writeFdsSize = Set.ncard {fd | (m fd).write = true} ↔
      ∀ fd, (m fd).write = false := by
    rw [writeFdsSize, hwrite.1]
    constructor
    · intro heq fd
      have hzero : Set.ncard {fd | (m fd).write = true} = 0 := by omega
      have hempty := (Set.ncard_eq_zero hwrite.2).mp hzero
      by_contra hfd
      rw [Bool.not_eq_false] at hfd
      exact (hempty ▸ hfd : fd ∈ (∅ : Set Int))
    · intro hnone
      have hempty : {fd | (m fd).write = true} = ∅ := by
        ext fd
        simp [hnone fd]
      rw [hempty, Set.ncard_empty]
  constructor
  · intro hrefines
    refine ⟨fun fd hzero => ?_, hwriteSize.mp hrefines.writeSize⟩
    obtain ⟨hany, hevents⟩ := (hrefines.polled fd 0).mp (h.mem_iff.mpr hzero)
    rw [eq_comm, Interest.events_eq_zero_iff, hany] at hevents
    cases hevents
  · rintro ⟨hidle, hnone⟩
    exact {
      once := h.once
      polled := fun fd e => by
        rw [h.mem_iff]
        constructor
        · intro he
          have hne : e ≠ 0 := fun hzero => hidle fd (hzero ▸ he)
          have heq := h.events fd e he
          rw [heq, Ne, Interest.events_eq_zero_iff, Bool.not_eq_false] at hne
          exact ⟨hne, heq⟩
        · rintro ⟨hany, rfl⟩
          cases he : polled fd with
          | none =>
            rw [h.absent fd he] at hany
            cases hany
          | some e => rw [h.events fd e he]
      readSize := by rw [readFdsSize, hread.1, Nat.one_mul]
      writeSize := hwriteSize.mpr hnone
      readRefused := fun fd hfd => h.ncard_of_refused hidle hfd
      writeRefused := fun fd hfd => h.ncard_of_refused hidle hfd }

/-! ### Runs -/

theorem Tracks.eq_none_of_neg (h : Tracks p m polled) (hfd : fd < 0) : polled fd = none :=
  Option.eq_none_iff_forall_not_mem.mpr fun _ he =>
    absurd (h.mem_iff.mpr he).2 (not_le.mpr hfd)

theorem Tracks.change_accepted (h : Tracks p m polled) (hfd : 0 ≤ fd) (f : PollFd → PollFd) :
    (p.change fd f).2 = true ↔ p.HasRoom fd := by
  cases hchange : p.change fd f with
  | mk p' ret =>
    have hgot := h.got hfd f
    rw [hchange] at hgot
    cases hgot with
    | @found _ _ e hl => exact iff_of_true rfl (.inl ⟨⟨fd, e⟩, by rw [hl]; simp, .inl rfl⟩)
    | free hl => exact iff_of_true rfl (.inl ⟨⟨-1, 0⟩, by rw [hl]; simp, .inr rfl⟩)
    | added _ _ hlt => exact iff_of_true rfl (.inr hlt)
    | refused hall hnone hle =>
      refine iff_of_false Bool.false_ne_true ?_
      rintro (⟨s, hs, rfl | hfree⟩ | hlt)
      · have he := h.mem_iff.mp ⟨hs, hfd⟩
        rw [hnone] at he
        cases he
      · have hpos := hall s hs
        omega
      · omega

/-- A table whose slots all have a read interest and nothing else. -/
def Sound (s : Session) (polled : Int → Option (BitVec 16)) : Prop :=
  Tracks s.poll s.interests polled ∧ (∀ fd, polled fd ≠ some 0) ∧
    ∀ fd, (s.interests fd).write = false

variable {s : Session}

theorem Sound.any_iff (h : Sound s polled) : (s.interests fd).any = true ↔ polled fd ≠ none := by
  cases he : polled fd with
  | none =>
    rw [h.1.absent fd he]
    exact iff_of_false Bool.false_ne_true fun hne => hne rfl
  | some e =>
    have hne : e ≠ 0 := fun hzero => h.2.1 fd (hzero ▸ he)
    rw [h.1.events fd e he, Ne, Interest.events_eq_zero_iff, Bool.not_eq_false] at hne
    exact iff_of_true hne (by simp)

theorem Sound.refines (h : Sound s polled) : s.poll.Refines s.interests := h.1.refines_iff.mpr h.2

theorem Sound.remove (h : Sound s polled) (bit : BitVec 16) (remove : Interest → Interest)
    (hremove : ∀ i, (remove i).events = i.events &&& ~~~bit)
    (hnothing : remove .nothing = .nothing)
    (hwrite : ∀ i, i.write = false → (remove i).write = false) (fd : Int) {s' : Session}
    (hs' : s' = ⟨(s.poll.change fd fun t => { t with events := t.events &&& ~~~bit }).1,
      Function.update s.interests fd (remove (s.interests fd))⟩) :
    (∃ polled', Tracks s'.poll s'.interests polled') ∧
      (s'.poll.Refines s'.interests ∧ ((s.interests fd).any = false → s'.poll = s.poll) ↔
        s.KeepsSlots fd (remove (s.interests fd))) := by
  subst hs'
  have hsame : (s.interests fd).any = false →
      Function.update s.interests fd (remove (s.interests fd)) = s.interests := fun hany => by
    have hnone : polled fd = none := by
      by_contra hne
      rw [h.any_iff.mpr hne] at hany
      cases hany
    rw [h.1.absent fd hnone, hnothing, ← h.1.absent fd hnone, Function.update_eq_self]
  by_cases hfd : fd < 0
  · have hnone := h.1.eq_none_of_neg hfd
    have hany : (s.interests fd).any = false := by rw [h.1.absent fd hnone]; rfl
    rw [change_of_neg hfd, hsame hany]
    exact ⟨⟨polled, h.1⟩, iff_of_true ⟨h.refines, fun _ => rfl⟩
      ⟨fun hany' => (Bool.false_ne_true (hany.symm.trans hany')).elim, fun _ => .inl hfd⟩⟩
  · have hfd' : 0 ≤ fd := not_lt.mp hfd
    by_cases hsome : polled fd = none
    · have hany : (s.interests fd).any = false := by rw [h.1.absent fd hsome]; rfl
      obtain ⟨htracks, hpoll⟩ := h.1.remove_none hfd' bit hsome
      rw [hsame hany]
      refine ⟨⟨polled, htracks⟩, ?_⟩
      rw [htracks.refines_iff, and_iff_right h.2, Session.KeepsSlots]
      simp [hany, hpoll, hfd]
    · have hany := h.any_iff.mpr hsome
      have htracks := h.1.remove hfd' hremove hsome
      refine ⟨⟨_, htracks⟩, ?_⟩
      have hidle : (∀ g, Function.update polled fd (some (remove (s.interests fd)).events) g ≠
          some 0) ↔ (remove (s.interests fd)).any = true := by
        rw [Function.forall_update_iff polled fun _ e => e ≠ some 0,
          and_iff_left fun g _ => h.2.1 g, Ne, Option.some.injEq, Interest.events_eq_zero_iff,
          Bool.not_eq_false]
      have hnowrite : ∀ g, (Function.update s.interests fd (remove (s.interests fd)) g).write =
          false :=
        (Function.forall_update_iff s.interests fun _ i => i.write = false).mpr
          ⟨hwrite _ (h.2.2 fd), fun g _ => h.2.2 g⟩
      rw [htracks.refines_iff, hidle, and_iff_left hnowrite, Session.KeepsSlots]
      simp [hany]

theorem Sound.setRead (h : Sound s polled) (fd : Int) :
    ∃ polled', Sound ⟨(s.poll.setReadFd fd).1,
      (Op.setReadFd fd).map s.interests (s.poll.setReadFd fd).2⟩ polled' := by
  by_cases hfd : fd < 0
  · rw [setReadFd, change_of_neg hfd]
    exact ⟨polled, h⟩
  · rcases h.1.set (not_lt.mp hfd) pollIn (fun i => { i with read := true })
      (fun i => by
        obtain ⟨read, write⟩ := i
        cases read <;> cases write <;> decide) with ⟨hret, htracks⟩ | ⟨heq, -⟩
    · rw [setReadFd, hret]
      refine ⟨_, htracks, ?_, ?_⟩
      · refine (Function.forall_update_iff polled fun _ e => e ≠ some 0).mpr
          ⟨?_, fun g _ => h.2.1 g⟩
        rw [Ne, Option.some.injEq, Interest.events_eq_zero_iff]
        simp [Interest.any]
      · exact (Function.forall_update_iff s.interests fun _ i => i.write = false).mpr
          ⟨h.2.2 fd, fun g _ => h.2.2 g⟩
    · rw [setReadFd, heq]
      exact ⟨polled, h⟩

/-- A write interest that is added is counted four times. -/
theorem Sound.setWrite (h : Sound s polled) (fd : Int) {s' : Session}
    (hs' : s' = ⟨(s.poll.setWriteFd fd).1,
      (Op.setWriteFd fd).map s.interests (s.poll.setWriteFd fd).2⟩) :
    (∃ polled', Tracks s'.poll s'.interests polled') ∧
      (s'.poll.Refines s'.interests ↔ fd < 0 ∨ ¬ s.poll.HasRoom fd) := by
  subst hs'
  by_cases hfd : fd < 0
  · rw [setWriteFd, change_of_neg hfd]
    exact ⟨⟨polled, h.1⟩, iff_of_true h.refines (.inl hfd)⟩
  · have hroom := h.1.change_accepted (not_lt.mp hfd) fun t => ⟨fd, t.events ||| pollOut⟩
    rcases h.1.set (not_lt.mp hfd) pollOut (fun i => { i with write := true })
      (fun i => by
        obtain ⟨read, write⟩ := i
        cases read <;> cases write <;> decide) with ⟨hret, htracks⟩ | ⟨heq, -⟩
    · rw [setWriteFd, hret]
      refine ⟨⟨_, htracks⟩, iff_of_false (fun hrefines => ?_) ?_⟩
      · have hwrite := (htracks.refines_iff.mp hrefines).2 fd
        rw [Function.update_self] at hwrite
        cases hwrite
      · rintro (hneg | hnot)
        · exact hfd hneg
        · exact hnot (hroom.mp hret)
    · rw [setWriteFd, heq]
      rw [heq] at hroom
      exact ⟨⟨polled, h.1⟩, iff_of_true h.refines
        (.inr fun hyes => Bool.false_ne_true (hroom.mpr hyes))⟩

theorem Sound.clear (h : Sound s polled) (fd : Int) :
    ∃ polled', Sound ⟨(s.poll.clearFd fd).1, Function.update s.interests fd .nothing⟩ polled' := by
  obtain ⟨polled', htracks, hsub⟩ := h.1.clear fd
  exact ⟨polled', htracks, fun g hzero => h.2.1 g (hsub g 0 hzero),
    (Function.forall_update_iff s.interests fun _ i => i.write = false).mpr
      ⟨rfl, fun g _ => h.2.2 g⟩⟩

/-- Of the operations on a sound table those keep it faithful that are
harmless. -/
theorem Sound.step (h : Sound s polled) {op : Op} (hop : op.WithinLimit s.poll.maxFds)
    {s' : Session} (hstep : s.step op = some s') :
    (∃ polled', Tracks s'.poll s'.interests polled') ∧
      (s.IsFaithful op s' ↔ s.IsHarmless op) := by
  have hsound : ∀ (op : Op) {t : Session}, (∃ polled', Sound t polled') → ¬ s.RemovesAbsent op →
      (∃ polled', Tracks t.poll t.interests polled') ∧ s.IsFaithful op t :=
    fun _ _ ⟨polled', ht⟩ hop => ⟨⟨polled', ht.1⟩, ht.refines, fun hop' => absurd hop' hop⟩
  obtain rfl := Option.some.inj hstep
  cases op with
  | setReadFd fd =>
    obtain ⟨htracks, hfaithful⟩ := hsound (.setReadFd fd) (h.setRead fd) id
    exact ⟨htracks, iff_of_true hfaithful trivial⟩
  | setWriteFd fd =>
    obtain ⟨htracks, hiff⟩ := h.setWrite fd rfl
    exact ⟨htracks, (and_iff_left fun hop => hop.elim).trans hiff⟩
  | rmReadFd fd =>
    exact h.remove pollIn (fun i => { i with read := false })
      (fun i => by
        obtain ⟨read, write⟩ := i
        cases read <;> cases write <;> decide) rfl (fun _ hi => hi) fd rfl
  | rmWriteFd fd =>
    exact h.remove pollOut (fun i => { i with write := false })
      (fun i => by
        obtain ⟨read, write⟩ := i
        cases read <;> cases write <;> decide) rfl (fun _ _ => rfl) fd rfl
  | clearFd fd =>
    obtain ⟨htracks, hfaithful⟩ := hsound (.clearFd fd) (h.clear fd) id
    exact ⟨htracks, iff_of_true hfaithful trivial⟩
  | clearFds =>
    have hempty : Sound ⟨s.poll.clearFds, fun _ => .nothing⟩ fun _ => none :=
      ⟨tracks_create s.poll.maxFds, by simp, fun _ => rfl⟩
    obtain ⟨htracks, hfaithful⟩ := hsound .clearFds ⟨_, hempty⟩ id
    exact ⟨htracks, iff_of_true hfaithful trivial⟩
  | resize nfds =>
    have hresize : ∃ polled', Sound ⟨s.poll.resize nfds,
        (Op.resize nfds).map s.interests true⟩ polled' := by
      by_cases hneg : nfds < 0
      · rw [resize, if_pos hneg, Op.map, if_pos hneg]
        exact ⟨polled, h⟩
      · have hle : nfds ≤ s.poll.maxFds := hop
        rw [resize, if_neg hneg, Op.map, if_neg hneg]
        exact ⟨_, tracks_replicate (by omega), by simp, fun _ => rfl⟩
    obtain ⟨htracks, hfaithful⟩ := hsound (.resize nfds) hresize id
    exact ⟨htracks, iff_of_true hfaithful trivial⟩

theorem sound_create (limit : Nat) : Sound (Session.create limit) fun _ => none :=
  ⟨tracks_create limit, by simp, fun _ => rfl⟩

theorem maxFds_step {op : Op} {s s' : Session} (h : s.step op = some s') :
    s'.poll.maxFds = s.poll.maxFds := by
  have hchange : ∀ fd f, (s.poll.change fd f).1.maxFds = s.poll.maxFds := fun fd f => by
    rw [change]
    split <;> rfl
  obtain rfl := Option.some.inj h
  cases op with
  | setReadFd fd => exact hchange fd _
  | setWriteFd fd => exact hchange fd _
  | rmReadFd fd => exact hchange fd _
  | rmWriteFd fd => exact hchange fd _
  | clearFd fd =>
    change (s.poll.clearFd fd).1.maxFds = _
    rw [clearFd]
    split <;> rfl
  | clearFds => rfl
  | resize nfds =>
    change (s.poll.resize nfds).maxFds = _
    rw [resize]
    split <;> rfl

/-- A table represents its interests all along a run exactly when every step of
the run is harmless. -/
theorem isFaithful_iff (limit : Nat) {ops : List Op} (hops : ∀ op ∈ ops, op.WithinLimit limit) :
    (create limit).Refines (fun _ => .nothing) ∧
        Transition.Along Session.step Session.IsFaithful (.create limit) ops ↔
      Transition.Along Session.step (fun s op _ => s.IsHarmless op) (.create limit) ops := by
  have hinit : (create limit).Refines fun _ => .nothing := (sound_create limit).refines
  rw [and_iff_right hinit]
  refine Transition.along_iff (I := fun s => s.poll.maxFds = limit ∧ ∃ polled, Sound s polled)
    (fun s op s' hop hs hstep hfaithful => ?_) (fun s op s' hop hs hstep => ?_)
    ⟨rfl, _, sound_create limit⟩ hops
  · obtain ⟨hlimit, polled, hsound⟩ := hs
    obtain ⟨⟨polled', htracks⟩, -⟩ := hsound.step (hlimit ▸ hop) hstep
    exact ⟨(maxFds_step hstep).trans hlimit, polled', htracks,
      htracks.refines_iff.mp hfaithful.1⟩
  · obtain ⟨hlimit, polled, hsound⟩ := hs
    exact (hsound.step (hlimit ▸ hop) hstep).2

/-- Two reads, a removal that changes nothing, and the ways to clear them. -/
theorem isFaithful_iff_reads :
    ((create 2).Refines fun _ => .nothing) ∧
        Transition.Along Session.step Session.IsFaithful (.create 2)
          [.setReadFd 3, .setReadFd 4, .rmWriteFd 3, .clearFd 3, .resize 1] ↔
      Transition.Along Session.step (fun s op _ => s.IsHarmless op) (.create 2)
        [.setReadFd 3, .setReadFd 4, .rmWriteFd 3, .clearFd 3, .resize 1] :=
  isFaithful_iff 2 (by
    intro op hop
    simp only [List.mem_cons, List.not_mem_nil, or_false] at hop
    rcases hop with rfl | rfl | rfl | rfl | rfl <;> simp [Op.WithinLimit])

/-- A slot keeps its descriptor when its last interest is removed. -/
theorem not_isFaithful : ¬ ∀ (limit : Nat) (ops : List Op), 1 ≤ limit →
    (∀ op ∈ ops, op.WithinLimit limit) →
      Transition.Along Session.step Session.IsFaithful (.create limit) ops := by
  intro h
  have hrun := h 1 [.setReadFd 5, .rmReadFd 5] le_rfl (by
    intro op hop
    simp only [List.mem_cons, List.not_mem_nil, or_false] at hop
    rcases hop with rfl | rfl <;> trivial)
  obtain ⟨-, hrest⟩ := hrun _ rfl
  obtain ⟨⟨hrefines, -⟩, -⟩ := hrest _ rfl
  obtain ⟨hany, -⟩ := (hrefines.polled 5 0).mp (by decide)
  revert hany
  decide

end Poll

end Sihd.Sys
