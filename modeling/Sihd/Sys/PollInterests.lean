import Sihd.Sys.Poll

/-!
# The interests and the events of a table

What a table asks of a descriptor is read off its slots. An operation changes it for
one descriptor, and a slot once taken is kept until the table is cleared. The answers
of the kernel to a table are made events of its descriptors.
-/

namespace Sihd.Sys.Poll

variable {p : Poll} {m : Int → Interest} {polled : Int → Option (BitVec 16)} {fd g : Int}

def interest (p : Poll) (fd : Int) : Interest where
  read := p.lstFds.any fun s => s.fd = fd ∧ s.events &&& pollIn ≠ 0
  write := p.lstFds.any fun s => s.fd = fd ∧ s.events &&& pollOut ≠ 0

def HasSlot (p : Poll) (fd : Int) : Prop := ∃ s ∈ p.lstFds, s.fd = fd

/-- A table of the operations. -/
def IsTable (p : Poll) : Prop := ∃ m polled, Tracks p m polled

theorem Tracks.slot_iff (h : Tracks p m polled) (hfd : 0 ≤ fd) (s : PollFd) :
    s ∈ p.lstFds ∧ s.fd = fd ↔ ∃ e, polled fd = some e ∧ s = ⟨fd, e⟩ := by
  constructor
  · rintro ⟨hs, rfl⟩
    exact ⟨s.events, h.mem_iff.mp ⟨hs, hfd⟩, rfl⟩
  · rintro ⟨e, he, rfl⟩
    exact ⟨(h.mem_iff.mpr he).1, rfl⟩

theorem Tracks.hasSlot_iff (h : Tracks p m polled) (hfd : 0 ≤ fd) :
    p.HasSlot fd ↔ polled fd ≠ none := by
  rw [Option.ne_none_iff_exists']
  constructor
  · rintro ⟨s, hs⟩
    obtain ⟨e, he, -⟩ := (h.slot_iff hfd s).mp hs
    exact ⟨e, he⟩
  · rintro ⟨e, he⟩
    exact ⟨_, (h.slot_iff hfd _).mpr ⟨e, he, rfl⟩⟩

theorem Tracks.interest_eq (h : Tracks p m polled) (hfd : 0 ≤ fd) : p.interest fd = m fd := by
  have hbit : ∀ (bit : BitVec 16) (get : Interest → Bool),
      (∀ i : Interest, decide (i.events &&& bit ≠ 0) = get i) → get .nothing = false →
        p.lstFds.any (fun s => s.fd = fd ∧ s.events &&& bit ≠ 0) = get (m fd) := by
    intro bit get hget hnothing
    rw [Bool.eq_iff_iff, List.any_eq_true]
    constructor
    · rintro ⟨s, hs, hs'⟩
      obtain ⟨hsfd, hsbit⟩ := of_decide_eq_true hs'
      obtain ⟨e, he, rfl⟩ := (h.slot_iff hfd s).mp ⟨hs, hsfd⟩
      rw [← hget, ← h.events fd e he]
      exact decide_eq_true hsbit
    · intro hm
      cases he : polled fd with
      | none =>
        rw [h.absent fd he, hnothing] at hm
        cases hm
      | some e =>
        obtain ⟨hs, hsfd⟩ := (h.slot_iff hfd ⟨fd, e⟩).mpr ⟨e, he, rfl⟩
        rw [← hget, ← h.events fd e he] at hm
        exact ⟨_, hs, decide_eq_true ⟨rfl, of_decide_eq_true hm⟩⟩
  ext1
  · exact hbit pollIn Interest.read (fun i => by
      obtain ⟨read, write⟩ := i
      cases read <;> cases write <;> decide) rfl
  · exact hbit pollOut Interest.write (fun i => by
      obtain ⟨read, write⟩ := i
      cases read <;> cases write <;> decide) rfl

/-- What an operation on a descriptor `fd` does to a table: the interests of `fd` become
`i`, those of the others stay, and slots are kept. -/
structure Changes (p : Poll) (fd : Int) (i : Interest) (p' : Poll) : Prop where
  isTable : p'.IsTable
  self : p'.interest fd = i
  others : ∀ g, 0 ≤ g → g ≠ fd → p'.interest g = p.interest g
  slots : ∀ g, 0 ≤ g → p.HasSlot g → p'.HasSlot g
  maxFds : p'.maxFds = p.maxFds

theorem change_maxFds (p : Poll) (fd : Int) (f : PollFd → PollFd) :
    (p.change fd f).1.maxFds = p.maxFds := by
  rw [change]
  split <;> rfl

theorem Tracks.changes {p' : Poll} {i : Interest} {polled' : Int → Option (BitVec 16)}
    (h : Tracks p m polled) (hfd : 0 ≤ fd)
    (h' : Tracks p' (Function.update m fd i) polled')
    (hpolled : ∀ g, polled g ≠ none → polled' g ≠ none) (hmax : p'.maxFds = p.maxFds) :
    p.Changes fd i p' where
  isTable := ⟨_, _, h'⟩
  self := by
    rw [h'.interest_eq hfd, Function.update_self]
  others g hg hne := by
    rw [h'.interest_eq hg, h.interest_eq hg, Function.update_of_ne hne]
  slots g hg hslot := (h'.hasSlot_iff hg).mpr (hpolled g ((h.hasSlot_iff hg).mp hslot))
  maxFds := hmax

/-- An interest is added when there is room. -/
theorem Tracks.changes_set (h : Tracks p m polled) (hfd : 0 ≤ fd) (bit : BitVec 16)
    (set : Interest → Interest) (hset : ∀ i, (set i).events = i.events ||| bit) :
    if (p.change fd fun s => ⟨fd, s.events ||| bit⟩).2 = true then
      p.Changes fd (set (p.interest fd)) (p.change fd fun s => ⟨fd, s.events ||| bit⟩).1
    else (p.change fd fun s => ⟨fd, s.events ||| bit⟩).1 = p := by
  rcases h.set hfd bit set hset with ⟨hret, htracks⟩ | ⟨heq, -⟩
  · rw [if_pos hret, h.interest_eq hfd]
    refine h.changes hfd htracks (fun g hg => ?_) (change_maxFds p fd _)
    by_cases hgfd : g = fd
    · rw [hgfd, Function.update_self]
      exact Option.some_ne_none _
    · rwa [Function.update_of_ne hgfd]
  · rw [heq, if_neg Bool.false_ne_true]

theorem Tracks.changes_remove (h : Tracks p m polled) (hfd : 0 ≤ fd) {bit : BitVec 16}
    {remove : Interest → Interest} (hremove : ∀ i, (remove i).events = i.events &&& ~~~bit)
    (hnothing : remove .nothing = .nothing) :
    p.Changes fd (remove (p.interest fd))
      (p.change fd fun s => { s with events := s.events &&& ~~~bit }).1 := by
  rw [h.interest_eq hfd]
  by_cases hnone : polled fd = none
  · obtain ⟨htracks, -⟩ := h.remove_none hfd bit hnone
    have hsame : Function.update m fd (remove (m fd)) = m := by
      rw [h.absent fd hnone, hnothing, ← h.absent fd hnone, Function.update_eq_self]
    exact h.changes hfd (hsame.symm ▸ htracks) (fun _ hg => hg) (change_maxFds p fd _)
  · refine h.changes hfd (h.remove hfd hremove hnone) (fun g hg => ?_) (change_maxFds p fd _)
    by_cases hgfd : g = fd
    · rw [hgfd, Function.update_self]
      exact Option.some_ne_none _
    · rwa [Function.update_of_ne hgfd]

section Table

variable (h : p.IsTable) (hfd : 0 ≤ fd)

include h hfd

theorem IsTable.setReadFd :
    if (p.setReadFd fd).2 = true then
      p.Changes fd { p.interest fd with read := true } (p.setReadFd fd).1
    else (p.setReadFd fd).1 = p := by
  obtain ⟨m, polled, h⟩ := h
  exact h.changes_set hfd pollIn (fun i => { i with read := true }) fun i => by
    obtain ⟨read, write⟩ := i
    cases read <;> cases write <;> decide

theorem IsTable.setWriteFd :
    if (p.setWriteFd fd).2 = true then
      p.Changes fd { p.interest fd with write := true } (p.setWriteFd fd).1
    else (p.setWriteFd fd).1 = p := by
  obtain ⟨m, polled, h⟩ := h
  exact h.changes_set hfd pollOut (fun i => { i with write := true }) fun i => by
    obtain ⟨read, write⟩ := i
    cases read <;> cases write <;> decide

theorem IsTable.rmReadFd :
    p.Changes fd { p.interest fd with read := false } (p.rmReadFd fd).1 := by
  obtain ⟨m, polled, h⟩ := h
  have hremove : ∀ i : Interest, { i with read := false }.events = i.events &&& ~~~pollIn := by
    rintro ⟨read, write⟩
    cases read <;> cases write <;> decide
  exact h.changes_remove hfd hremove rfl

theorem IsTable.rmWriteFd :
    p.Changes fd { p.interest fd with write := false } (p.rmWriteFd fd).1 := by
  obtain ⟨m, polled, h⟩ := h
  have hremove : ∀ i : Interest, { i with write := false }.events = i.events &&& ~~~pollOut := by
    rintro ⟨read, write⟩
    cases read <;> cases write <;> decide
  exact h.changes_remove hfd hremove rfl

/-- A set is accepted when there is a slot of the descriptor, a free one or room for a
new one. -/
theorem IsTable.setReadFd_accepted : (p.setReadFd fd).2 = true ↔ p.HasRoom fd := by
  obtain ⟨m, polled, h⟩ := h
  exact h.change_accepted hfd _

theorem IsTable.setWriteFd_accepted : (p.setWriteFd fd).2 = true ↔ p.HasRoom fd := by
  obtain ⟨m, polled, h⟩ := h
  exact h.change_accepted hfd _

end Table

theorem HasSlot.hasRoom (h : p.HasSlot fd) : p.HasRoom fd := by
  obtain ⟨s, hs, hsfd⟩ := h
  exact .inl ⟨s, hs, .inl hsfd⟩

/-- No interest is left in a table that is cleared. -/
theorem isTable_clearFds (p : Poll) : p.clearFds.IsTable := ⟨_, _, tracks_create p.maxFds⟩

/-- A slot has events of the interests of its descriptor. -/
theorem IsTable.events_eq (h : p.IsTable) {s : PollFd} (hs : s ∈ p.lstFds) (hfd : 0 ≤ s.fd) :
    s.events = (p.interest s.fd).events := by
  obtain ⟨m, polled, h⟩ := h
  rw [h.interest_eq hfd]
  exact h.events s.fd s.events (h.mem_iff.mp ⟨hs, hfd⟩)

theorem IsTable.once (h : p.IsTable) :
    ((p.lstFds.filter fun s => 0 ≤ s.fd).map PollFd.fd).Nodup := by
  obtain ⟨m, polled, h⟩ := h
  exact h.once

end Sihd.Sys.Poll

/-! ### Events -/

namespace Sihd.Sys

def pollErr : BitVec 16 := 0x8#16

def pollHup : BitVec 16 := 0x10#16

def pollNval : BitVec 16 := 0x20#16

def pollRdHup : BitVec 16 := 0x2000#16

structure PollEvent where
  fd : Int
  readable : Bool
  writable : Bool
  error : Bool
  closed : Bool
  deriving DecidableEq

namespace Poll

/-- What the kernel answers to a table: nothing for a free slot, and for the others
nothing but what they ask for and the three that are always told. -/
def IsAnswer (p : Poll) (revents : List (BitVec 16)) : Bool :=
  revents.length = p.lstFds.length &&
    (p.lstFds.zip revents).all fun r =>
      if r.1.fd < 0 then r.2 = 0
      else r.2 &&& ~~~(r.1.events ||| pollErr ||| pollHup ||| pollNval) = 0

/-- `process_poll_results`: the slots that are answered, in order. -/
def processPollResults (p : Poll) (revents : List (BitVec 16)) : List PollEvent :=
  (p.lstFds.zip revents).filterMap fun r =>
    if r.2 = 0 then none
    else some {
      fd := r.1.fd
      readable := r.2 &&& (pollIn ||| pollPri) ≠ 0
      writable := r.2 &&& pollOut ≠ 0
      error := r.2 &&& (pollNval ||| pollErr) ≠ 0
      closed := r.2 &&& (pollHup ||| pollRdHup) ≠ 0 }

section Events

variable {p : Poll} {revents : List (BitVec 16)}

/-- A bit that is always told or asked for is asked for when it is not always told. -/
theorem answer_le {revt asked bits : BitVec 16}
    (hanswer : revt &&& ~~~(asked ||| pollErr ||| pollHup ||| pollNval) = 0)
    (hbits : bits &&& (pollErr ||| pollHup ||| pollNval) = 0) (hrevt : revt &&& bits ≠ 0) :
    asked &&& bits ≠ 0 := by
  intro hasked
  refine hrevt (BitVec.eq_of_getElem_eq fun i hi => ?_)
  have hanswer' := congrArg (fun b : BitVec 16 => b[i]) hanswer
  have hbits' := congrArg (fun b : BitVec 16 => b[i]) hbits
  have hasked' := congrArg (fun b : BitVec 16 => b[i]) hasked
  simp only [BitVec.getElem_and, BitVec.getElem_or, BitVec.getElem_not] at hanswer' hbits' hasked' ⊢
  revert hanswer' hbits' hasked'
  cases revt[i] <;> cases asked[i] <;> cases bits[i] <;> simp_all

/-- An event is of a descriptor with a slot, and tells what was asked of it. -/
theorem IsTable.event (h : p.IsTable) (hanswer : p.IsAnswer revents = true) {e : PollEvent}
    (he : e ∈ p.processPollResults revents) :
    0 ≤ e.fd ∧ p.HasSlot e.fd ∧ (e.readable = true → (p.interest e.fd).read = true) ∧
      (e.writable = true → (p.interest e.fd).write = true) := by
  obtain ⟨⟨s, revt⟩, hmem, hsome⟩ := List.mem_filterMap.mp he
  rw [IsAnswer, Bool.and_eq_true, List.all_eq_true] at hanswer
  have hslot := hanswer.2 _ hmem
  dsimp only at hslot hsome
  split at hsome
  · cases hsome
  · rename_i hrevt
    cases hsome
    split at hslot
    · exact absurd (of_decide_eq_true hslot) hrevt
    · rename_i hfd
      have hs : s ∈ p.lstFds := List.of_mem_zip hmem |>.1
      have hevents := h.events_eq hs (not_lt.mp hfd)
      have hasked : ∀ bits : BitVec 16, bits &&& (pollErr ||| pollHup ||| pollNval) = 0 →
          revt &&& bits ≠ 0 → (p.interest s.fd).events &&& bits ≠ 0 := fun bits hbits hne =>
        hevents ▸ answer_le (of_decide_eq_true hslot) hbits hne
      refine ⟨not_lt.mp hfd, ⟨s, hs, rfl⟩, fun hreadable => ?_, fun hwritable => ?_⟩
      · have hne := hasked (pollIn ||| pollPri) (by decide) (of_decide_eq_true hreadable)
        generalize p.interest s.fd = i at hne
        obtain ⟨read, write⟩ := i
        cases read <;> cases write <;> simp_all [Interest.events, pollIn, pollPri, pollOut]
      · have hne := hasked pollOut (by decide) (of_decide_eq_true hwritable)
        generalize p.interest s.fd = i at hne
        obtain ⟨read, write⟩ := i
        cases read <;> cases write <;> simp_all [Interest.events, pollIn, pollPri, pollOut]

/-- A descriptor has one event. -/
theorem IsTable.events_nodup (h : p.IsTable) (hanswer : p.IsAnswer revents = true) :
    ((p.processPollResults revents).map PollEvent.fd).Nodup := by
  refine h.once.sublist ?_
  rw [IsAnswer, Bool.and_eq_true, List.all_eq_true] at hanswer
  obtain ⟨-, hslots⟩ := hanswer
  clear h
  rw [processPollResults]
  generalize p.lstFds = l at hslots
  induction l generalizing revents with
  | nil => exact List.Sublist.refl _
  | cons s l ih =>
    cases revents with
    | nil => exact List.nil_sublist _
    | cons revt revents =>
      rw [List.zip_cons_cons, List.forall_mem_cons] at hslots
      have hrest := ih hslots.2
      have hslot := hslots.1
      rw [List.zip_cons_cons, List.filterMap_cons]
      dsimp only at hslot ⊢
      by_cases hrevt : revt = 0
      · rw [if_pos hrevt]
        exact hrest.trans (((List.sublist_cons_self s l).filter _).map _)
      · have hfd : 0 ≤ s.fd := by
          by_contra hneg
          rw [if_pos (not_le.mp hneg)] at hslot
          exact hrevt (of_decide_eq_true hslot)
        rw [if_neg hrevt, List.filter_cons_of_pos (by simpa using hfd), List.map_cons,
          List.map_cons]
        exact hrest.cons_cons _

end Events

end Poll

end Sihd.Sys
