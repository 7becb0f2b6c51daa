import Sihd.Sys.ProcessOutput

/-!
# What is read of the output of a process

Nothing is lost as long as the pipes are polled. The last read of `terminate` is one read of each
pipe, so what the buffer cannot hold is left behind.
-/

namespace Sihd.Sys.ProcessOutput.World

open ChildProcess
open Sihd.Util

variable {w w' : World}

/-! ### Pipes -/

/-- The record agrees with the pipes. -/
structure Recorded (w : World) : Prop where
  pieces : ∀ std, (w.pieces std).flatten = (w.pipe std).taken
  written : ∀ std, (w.pipe std).written = w.written std

theorem Recorded.isComplete_iff (h : Recorded w) :
    w.IsComplete ↔ ∀ std, (w.pipe std).content = [] := by
  refine forall_congr' fun std => ?_
  rw [h.pieces, ← h.written, Pipe.taken_eq_written_iff]

theorem Recorded.of_eq (h : Recorded w) (hpieces : w'.pieces = w.pieces)
    (hpipe : w'.pipe = w.pipe) (hwritten : w'.written = w.written) : Recorded w' where
  pieces := by
    rw [hpieces, hpipe]
    exact h.pieces
  written := by
    rw [hpipe, hwritten]
    exact h.written

/-! ### The table -/

/-- The read ends that are open are polled, and nothing else is. A pipe whose read end was closed
is empty. -/
structure Open (w : World) : Prop where
  sound : ∃ interests polled, Poll.Sound ⟨w.poll, interests⟩ polled ∧
    ∀ fd, (interests fd).read = true ↔ 0 ≤ fd ∧ ∃ std, w.fdRead std = fd
  distinct : ∀ a b, w.fdRead a = w.fdRead b → 0 ≤ w.fdRead a → a = b
  drained : ∀ std, w.fdRead std < 0 → (w.pipe std).content = []

theorem Open.of_eq (h : Open w) (hpoll : w'.poll = w.poll) (hfd : w'.fdRead = w.fdRead)
    (hpipe : ∀ std, w.fdRead std < 0 → (w'.pipe std).content = (w.pipe std).content) :
    Open w' where
  sound := by
    rw [hpoll, hfd]
    exact h.sound
  distinct := by
    rw [hfd]
    exact h.distinct
  drained := fun std hstd => by
    rw [hfd] at hstd
    rw [hpipe std hstd]
    exact h.drained std hstd

theorem Open.stdOf_eq (h : Open w) {std : Std} (hfd : 0 ≤ w.fdRead std) :
    w.stdOf (w.fdRead std) = some std := by
  rw [stdOf]
  cases std with
  | out => rw [if_pos rfl]
  | err =>
    rw [if_neg fun heq => ?_, if_pos rfl]
    cases h.distinct _ _ heq hfd

theorem Open.slot_iff (h : Open w) {s : PollFd} (hfd : 0 ≤ s.fd) :
    s ∈ w.poll.lstFds ↔ s.events = pollIn ∧ ∃ std, w.fdRead std = s.fd := by
  obtain ⟨interests, polled, hsound, hread⟩ := h.sound
  have hpolled := hsound.refines.polled s.fd s.events
  rw [and_iff_left hfd] at hpolled
  refine hpolled.trans ?_
  have hany : (interests s.fd).any = (interests s.fd).read := by
    rw [Poll.Interest.any, hsound.2.2 s.fd, Bool.or_false]
  have hevents : (interests s.fd).any = true → (interests s.fd).events = pollIn := fun hany' => by
    rw [hany] at hany'
    rw [Poll.Interest.events, hany', hsound.2.2 s.fd]
    rfl
  constructor
  · rintro ⟨hyes, heq⟩
    rw [hevents hyes] at heq
    rw [hany, hread] at hyes
    exact ⟨heq, hyes.2⟩
  · rintro ⟨heq, hstd⟩
    have hyes : (interests s.fd).any = true := by
      rw [hany, hread]
      exact ⟨hfd, hstd⟩
    exact ⟨hyes, heq.trans (hevents hyes).symm⟩

theorem Open.nodup (h : Open w) :
    ((w.poll.lstFds.filter fun s => 0 ≤ s.fd).map PollFd.fd).Nodup := by
  obtain ⟨interests, polled, hsound, -⟩ := h.sound
  exact hsound.refines.once

@[simp] theorem fdRead_closeRead_self (w : World) (std : Std) :
    (w.closeRead std).fdRead std = -1 :=
  Function.update_self ..

theorem fdRead_closeRead_of_ne (w : World) {std a : Std} (h : a ≠ std) :
    (w.closeRead std).fdRead a = w.fdRead a :=
  Function.update_of_ne h ..

theorem Open.closeRead (h : Open w) {std : Std} (hfd : 0 ≤ w.fdRead std)
    (hempty : (w.pipe std).content = []) : Open (w.closeRead std) where
  sound := by
    obtain ⟨interests, polled, hsound, hread⟩ := h.sound
    obtain ⟨polled', hsound'⟩ := hsound.clear (w.fdRead std)
    refine ⟨_, polled', hsound', fun fd => ?_⟩
    by_cases heq : fd = w.fdRead std
    · subst heq
      refine iff_of_false (by simp [Poll.Interest.nothing]) ?_
      rintro ⟨-, a, ha⟩
      by_cases hstd : a = std
      · rw [hstd, fdRead_closeRead_self] at ha
        omega
      · rw [fdRead_closeRead_of_ne w hstd] at ha
        exact hstd (h.distinct _ _ ha (ha ▸ hfd))
    · dsimp only
      rw [Function.update_of_ne heq, hread]
      refine and_congr_right fun hpos => exists_congr fun a => ?_
      by_cases hstd : a = std
      · rw [hstd, fdRead_closeRead_self]
        exact iff_of_false (Ne.symm heq) (by omega)
      · rw [fdRead_closeRead_of_ne w hstd]
  distinct := fun a b heq hpos => by
    by_cases ha : a = std
    · rw [ha, fdRead_closeRead_self] at hpos
      omega
    · by_cases hb : b = std
      · rw [heq, hb, fdRead_closeRead_self] at hpos
        omega
      · rw [fdRead_closeRead_of_ne w ha] at heq hpos
        rw [fdRead_closeRead_of_ne w hb] at heq
        exact h.distinct a b heq hpos
  drained := fun a ha => by
    by_cases heq : a = std
    · rw [heq]
      exact hempty
    · rw [fdRead_closeRead_of_ne w heq] at ha
      exact h.drained a ha

/-! ### Events -/

theorem event_cases {s : PollFd} {e : PollEvent} (h : w.event s = some e) :
    0 ≤ s.fd ∧ e.fd = s.fd := by
  rw [event] at h
  obtain ⟨hfd, h⟩ := Option.ite_none_left_eq_some.mp h
  refine ⟨not_lt.mp hfd, ?_⟩
  split at h
  · obtain ⟨-, h⟩ := Option.ite_none_right_eq_some.mp h
    rw [← Option.some.inj h]
  · rw [← Option.some.inj h]

/-- A poll reports each open read end at most once. It reports it if its pipe holds bytes or has
lost its writer, and as not readable only if it is empty then. -/
structure Polled (w : World) (events : List PollEvent) : Prop where
  nodup : (events.map PollEvent.fd).Nodup
  opened : ∀ e ∈ events, 0 ≤ e.fd ∧ ∃ std, w.fdRead std = e.fd
  hungUp : ∀ e ∈ events, e.readable = false → ∀ std, w.fdRead std = e.fd →
    w.alive = false ∧ (w.pipe std).content = []

theorem sublist_of_filterMap (l : List PollFd) :
    ((l.filterMap w.event).map PollEvent.fd).Sublist
      ((l.filter fun s => 0 ≤ s.fd).map PollFd.fd) := by
  induction l with
  | nil => exact .slnil
  | cons s l ih =>
    cases hevent : w.event s with
    | none =>
      rw [List.filterMap_cons_none hevent]
      by_cases hfd : 0 ≤ s.fd
      · rw [List.filter_cons_of_pos (by simpa using hfd)]
        exact ih.cons _
      · rw [List.filter_cons_of_neg (by simpa using hfd)]
        exact ih
    | some e =>
      obtain ⟨hfd, heq⟩ := event_cases hevent
      rw [List.filterMap_cons_some hevent, List.filter_cons_of_pos (by simpa using hfd),
        List.map_cons, List.map_cons, heq]
      exact ih.cons_cons _

theorem Open.event_eq (h : Open w) {std : Std} (hfd : 0 ≤ w.fdRead std) :
    w.event ⟨w.fdRead std, pollIn⟩ =
      if !(w.pipe std).content.isEmpty || !w.alive then
        some ⟨w.fdRead std, !(w.pipe std).content.isEmpty⟩ else none := by
  have hasked : decide (pollIn &&& pollIn ≠ 0) = true := by decide
  rw [event, if_neg (not_lt.mpr hfd), h.stdOf_eq hfd]
  dsimp only
  rw [hasked, Bool.true_and]

theorem Open.polled (h : Open w) : Polled w (w.poll.lstFds.filterMap w.event) where
  nodup := h.nodup.sublist (sublist_of_filterMap _)
  opened := fun e he => by
    obtain ⟨s, hs, hevent⟩ := List.mem_filterMap.mp he
    obtain ⟨hfd, heq⟩ := event_cases hevent
    rw [heq]
    exact ⟨hfd, ((h.slot_iff hfd).mp hs).2⟩
  hungUp := fun e he hreadable std hstd => by
    obtain ⟨s, hs, hevent⟩ := List.mem_filterMap.mp he
    obtain ⟨hfd, heq⟩ := event_cases hevent
    obtain ⟨hevents, -⟩ := (h.slot_iff hfd).mp hs
    obtain ⟨fd, events⟩ := s
    dsimp only at hevents heq hfd
    rw [heq] at hstd
    subst hevents hstd
    rw [h.event_eq hfd] at hevent
    obtain ⟨hready, hevent⟩ := Option.ite_none_right_eq_some.mp hevent
    rw [← Option.some.inj hevent, Bool.not_eq_false', List.isEmpty_iff] at hreadable
    rw [hreadable] at hready
    exact ⟨by simpa using hready, hreadable⟩

/-- Nothing is missed by a poll. -/
theorem Open.exists_event (h : Open w) {std : Std} (hfd : 0 ≤ w.fdRead std)
    (hready : (w.pipe std).content ≠ [] ∨ w.alive = false) :
    ∃ e ∈ w.poll.lstFds.filterMap w.event, e.fd = w.fdRead std := by
  refine ⟨⟨w.fdRead std, !(w.pipe std).content.isEmpty⟩, List.mem_filterMap.mpr
    ⟨⟨w.fdRead std, pollIn⟩, (h.slot_iff hfd).mpr ⟨rfl, std, rfl⟩, ?_⟩, rfl⟩
  rw [h.event_eq hfd, if_pos]
  simpa using hready

/-! ### Waits -/

theorem alive_iff : w.alive = true ↔
    ∃ child, w.children w.pid = some child ∧ ∀ e, child.life ≠ .ended e := by
  rw [alive]
  split
  · next e reported hchild =>
    rw [hchild]
    exact iff_of_false Bool.false_ne_true fun ⟨child, heq, hlife⟩ => by
      obtain rfl := Option.some.inj heq
      exact hlife e rfl
  · next child hlife hchild =>
    refine iff_of_true rfl ⟨child, hchild, fun e he => ?_⟩
    obtain ⟨life, reported⟩ := child
    exact hlife e reported (congrArg (Child.mk · reported) he)
  · next hchild =>
    rw [hchild]
    exact iff_of_false Bool.false_ne_true fun ⟨child, heq, _⟩ => by cases heq

/-- The process runs as long as no wait has seen the end of its child. -/
structure Watched (w : World) : Prop where
  alive : w.alive = true → w.process.started = true ∧ w.process.watcher.pid = w.pid
  started : w.process.started = !w.process.watcher.hasTerminated

/-- A change of nothing but the process and its children, none of which comes back. -/
structure Waits (w w' : World) : Prop where
  eq : ∃ process children, w' = { w with process := process, children := children }
  alive : w'.alive = true → w.alive = true

theorem Watched.waitAny (h : Watched w) {o : Surroundings} (hstep : w.waitAny o = some w') :
    Watched w' ∧ Waits w w' := by
  rw [World.waitAny, Option.map_eq_some_iff] at hstep
  obtain ⟨⟨ret, process, children⟩, hwait, rfl⟩ := hstep
  cases hstarted : w.process.started with
  | false =>
    rw [Process.wait, if_pos hstarted] at hwait
    cases hwait
    exact ⟨h, ⟨_, _, rfl⟩, id⟩
  | true =>
    obtain ⟨answer, hwaitid, hwatcher, hret, hrun⟩ := Process.wait_of_started hstarted hwait
    have halive : ({ w with process := process, children := children } : World).alive = true →
        w.alive = true := fun halive' => by
      obtain ⟨child, hchild, hlife⟩ := alive_iff.mp halive'
      dsimp only at hchild
      rcases children_of_waitid hwaitid with rfl | ⟨before, hbefore, rfl⟩
      · exact alive_iff.mpr ⟨child, hchild, hlife⟩
      · by_cases hpid : w.pid = w.process.watcher.pid
        · rw [hpid, Function.update_self, Child.collected] at hchild
          refine alive_iff.mpr ⟨before, hpid ▸ hbefore, fun e he => ?_⟩
          rw [he] at hchild
          cases hchild
        · rw [Function.update_of_ne hpid] at hchild
          exact alive_iff.mpr ⟨child, hchild, hlife⟩
    refine ⟨⟨fun halive' => ?_, by rw [hrun, hret]⟩, ⟨_, _, rfl⟩, halive⟩
    obtain ⟨child, hchild, hlife⟩ := alive_iff.mp (halive halive')
    have hpid := (h.alive (halive halive')).2
    rw [← hpid] at hchild
    obtain ⟨info, rfl, hexited, hkilled⟩ := ok_of_waitid hchild hlife hwaitid
    have hrunning : process.watcher.hasTerminated = false := by
      rw [hwatcher]
      simp [ProcessWatcher.checkStatus, ProcessWatcher.hasTerminated, hexited, hkilled]
    refine ⟨by rw [hrun, hret, hrunning, Bool.not_false], ?_⟩
    rw [hwatcher] at hrunning
    dsimp only
    have hok : (Except.ok info : Except Errno SigInfo) ≠ .error .echild := by
      rintro ⟨⟩
    rw [hwatcher]
    exact (Process.pid_checkStatus hok hrunning).trans hpid

/-! ### What others do -/

/-- A step of the child. It writes to open pipes only, as long as it has not ended. -/
structure Outside (w w' : World) : Prop where
  process : w'.process = w.process
  service : w'.service = w.service
  poll : w'.poll = w.poll
  fdRead : w'.fdRead = w.fdRead
  pid : w'.pid = w.pid
  pc : w'.pc = w.pc
  inOrder : w'.inOrder = w.inOrder
  alive : w'.alive = true → w.alive = true
  pipe : ∀ std, w'.pipe std = w.pipe std ∨ w.alive = true ∧ 0 ≤ w.fdRead std

theorem outside_write {std : Std} {bytes : List UInt8}
    (h : w.step (.write std bytes) = some w') : Outside w w' := by
  obtain ⟨⟨halive, hfd⟩, h⟩ := Option.ite_none_right_eq_some.mp h
  obtain rfl := Option.some.inj h
  refine ⟨rfl, rfl, rfl, rfl, rfl, rfl, rfl, id, fun a => ?_⟩
  by_cases heq : a = std
  · rw [heq]
    exact .inr ⟨halive, hfd⟩
  · exact .inl (Function.update_of_ne heq ..)

theorem outside_life {event : Event} (h : w.step (.life event) = some w') : Outside w w' := by
  obtain ⟨child, hchild, h⟩ := Option.bind_eq_some_iff.mp h
  obtain ⟨child', hnext, rfl⟩ := Option.map_eq_some_iff.mp h
  refine ⟨rfl, rfl, rfl, rfl, rfl, rfl, rfl, fun _ => ?_, fun _ => .inl rfl⟩
  refine alive_iff.mpr ⟨child, hchild, fun e he => ?_⟩
  simp [Child.next, he] at hnext

theorem Recorded.write (h : Recorded w) {std : Std} {bytes : List UInt8}
    (hstep : w.step (.write std bytes) = some w') : Recorded w' := by
  obtain ⟨-, hstep⟩ := Option.ite_none_right_eq_some.mp hstep
  obtain rfl := Option.some.inj hstep
  refine ⟨fun a => ?_, fun a => ?_⟩
  · by_cases heq : a = std
    · subst heq
      simpa [Pipe.write] using h.pieces a
    · simpa [heq] using h.pieces a
  · by_cases heq : a = std
    · subst heq
      simpa using h.written a
    · simpa [heq] using h.written a

theorem Watched.outside (h : Watched w) (ho : Outside w w') : Watched w' where
  alive := fun halive => by
    rw [ho.process, ho.pid]
    exact h.alive (ho.alive halive)
  started := by
    rw [ho.process]
    exact h.started

theorem Open.outside (h : Open w) (ho : Outside w w') : Open w' := by
  refine h.of_eq ho.poll ho.fdRead fun std hstd => ?_
  rcases ho.pipe std with heq | ⟨-, hfd⟩
  · rw [heq]
  · omega

/-- Nothing is written any more once the child has ended. -/
theorem Outside.pipe_eq (h : Outside w w') (hended : w.alive = false) (std : Std) :
    w'.pipe std = w.pipe std :=
  (h.pipe std).resolve_right fun ⟨halive, _⟩ => Bool.false_ne_true (hended.symm.trans halive)

theorem Outside.ended (h : Outside w w') (hended : w.alive = false) : w'.alive = false := by
  rw [← Bool.not_eq_true] at hended ⊢
  exact fun halive => hended (h.alive halive)

theorem Polled.outside {events : List PollEvent} (h : Polled w events) (ho : Outside w w') :
    Polled w' events where
  nodup := h.nodup
  opened := by
    rw [ho.fdRead]
    exact h.opened
  hungUp := fun e he hreadable std hstd => by
    rw [ho.fdRead] at hstd
    obtain ⟨hended, hempty⟩ := h.hungUp e he hreadable std hstd
    rw [ho.pipe_eq hended std]
    exact ⟨ho.ended hended, hempty⟩

/-! ### Reads -/

/-- The body of the loop of `handle` reads the pipe of one event and leaves all else. It is in
order if it is not that of `terminate`, or empties the pipe. -/
structure Reads (w : World) (after : After) (std : Std) (w' : World) : Prop where
  process : w'.process = w.process
  children : w'.children = w.children
  service : w'.service = w.service
  pid : w'.pid = w.pid
  fdRead : w'.fdRead std = w.fdRead std ∨ w'.fdRead std = -1
  others : ∀ a, a ≠ std → w'.fdRead a = w.fdRead a ∧ w'.pipe a = w.pipe a
  inOrder : w'.inOrder =
    (w.inOrder && (after ≠ .close || decide ((w'.pipe std).content = [])))

theorem reads_closeRead {after : After} {std : Std} (hempty : (w.pipe std).content = []) :
    Reads w after std (w.closeRead std) := by
  refine ⟨rfl, rfl, rfl, rfl, .inr (fdRead_closeRead_self w std),
    fun a ha => ⟨fdRead_closeRead_of_ne w ha, rfl⟩, ?_⟩
  have hempty' : ((w.closeRead std).pipe std).content = [] := hempty
  rw [decide_eq_true hempty', Bool.or_true, Bool.and_true]
  rfl

theorem reads_of_readPipe (hopen : Open w) (hrec : Recorded w) {after : After} {std : Std}
    {size : Nat} (hfd : 0 ≤ w.fdRead std) (h : w.readPipe after std size = some w') :
    Open w' ∧ Recorded w' ∧ Reads w after std w' := by
  rw [readPipe] at h
  split at h
  · next hempty =>
    obtain ⟨-, h⟩ := Option.ite_none_left_eq_some.mp h
    obtain rfl := Option.some.inj h
    exact ⟨hopen.closeRead hfd hempty, hrec.of_eq rfl rfl rfl, reads_closeRead hempty⟩
  · obtain ⟨-, h⟩ := Option.ite_none_right_eq_some.mp h
    obtain rfl := Option.some.inj h
    refine ⟨hopen.of_eq rfl rfl fun a ha => ?_, ⟨fun a => ?_, fun a => ?_⟩,
      ⟨rfl, rfl, rfl, rfl, .inl rfl, fun a ha => ⟨rfl, Function.update_of_ne ha ..⟩, ?_⟩⟩
    · have hne : a ≠ std := fun heq => by
        rw [heq] at ha
        omega
      simp [hne]
    · by_cases heq : a = std
      · subst heq
        simp [Pipe.read, hrec.pieces a]
      · simpa [heq] using hrec.pieces a
    · by_cases heq : a = std
      · subst heq
        simpa using hrec.written a
      · simpa [heq] using hrec.written a
    · simp [Pipe.content_read_eq_nil_iff]

/-- One event is handled. -/
theorem reads_of_handleEvent (hopen : Open w) (hrec : Recorded w) {after : After} {e : PollEvent}
    {events : List PollEvent} {size : Nat} (hpolled : Polled w (e :: events))
    (h : w.handleEvent after e size = some w') :
    Open w' ∧ Recorded w' ∧ ∃ std, w.fdRead std = e.fd ∧ 0 ≤ w.fdRead std ∧
      Reads w after std w' := by
  obtain ⟨hfd, std, hstd⟩ := hpolled.opened e List.mem_cons_self
  rw [← hstd] at hfd
  rw [handleEvent, ← hstd, hopen.stdOf_eq hfd] at h
  dsimp only at h
  split at h
  · obtain ⟨hopen', hrec', hreads⟩ := reads_of_readPipe hopen hrec hfd h
    exact ⟨hopen', hrec', std, hstd, hfd, hreads⟩
  · next hreadable =>
    obtain rfl := Option.some.inj h
    have hempty := (hpolled.hungUp e List.mem_cons_self (by simpa using hreadable) std hstd).2
    exact ⟨hopen.closeRead hfd hempty, hrec.of_eq rfl rfl rfl, std, hstd, hfd,
      reads_closeRead hempty⟩

theorem Reads.alive {after : After} {std : Std} (h : Reads w after std w') :
    w'.alive = w.alive := by
  rw [World.alive, h.children, h.pid, World.alive]

/-- The events that are left are of the other pipes. -/
theorem Polled.fd_ne {e e' : PollEvent} {events : List PollEvent} (h : Polled w (e :: events))
    (he' : e' ∈ events) : e'.fd ≠ e.fd := fun heq => by
  have hnodup := h.nodup
  rw [List.map_cons, List.nodup_cons] at hnodup
  exact hnodup.1 (List.mem_map.mpr ⟨e', he', heq⟩)

theorem Polled.tail {after : After} {std : Std} {e : PollEvent} {events : List PollEvent}
    (h : Polled w (e :: events)) (hstd : w.fdRead std = e.fd) (hreads : Reads w after std w') :
    Polled w' events where
  nodup := by
    have hnodup := h.nodup
    rw [List.map_cons, List.nodup_cons] at hnodup
    exact hnodup.2
  opened := fun e' he' => by
    obtain ⟨hfd, a, ha⟩ := h.opened e' (List.mem_cons_of_mem _ he')
    have hne : a ≠ std := fun heq => h.fd_ne he' (by rw [← ha, heq, hstd])
    exact ⟨hfd, a, by rw [(hreads.others a hne).1, ha]⟩
  hungUp := fun e' he' hreadable a ha => by
    have hne : a ≠ std := fun heq => by
      rw [heq] at ha
      rcases hreads.fdRead with hsame | hclosed
      · exact h.fd_ne he' (by rw [← ha, hsame, hstd])
      · have hfd := (h.opened e' (List.mem_cons_of_mem _ he')).1
        omega
    rw [(hreads.others a hne).1] at ha
    rw [(hreads.others a hne).2, hreads.alive]
    exact h.hungUp e' (List.mem_cons_of_mem _ he') hreadable a ha

/-! ### By `proc::execute` -/

/-- The poll is never started. -/
def idleService : LoopService.World Poll.Pc := .init loopService false

theorem stopPoll_idle (h : w.service = idleService) (after : After) (ret : Nat) :
    w.stopPoll after ret = some { w with pc := after.pc ret } := by
  have hstop : idleService.step loopService .stop = some idleService := rfl
  rw [stopPoll, h, hstop, Option.map_some]
  obtain ⟨⟩ := w
  dsimp only at h
  rw [h]
  rfl

/-- The last events are handled. What is left in the pipes is what is still to be read, as long as
each read has emptied its pipe. -/
structure Closing (w : World) (events : List PollEvent) : Prop where
  ended : w.alive = false
  terminated : w.process.started = false
  toRead : w.inOrder = true → ∀ std, (w.pipe std).content ≠ [] →
    ∃ e ∈ events, e.fd = w.fdRead std
  lost : w.inOrder = false → ∃ std, (w.pipe std).content ≠ [] ∧
    ∀ e ∈ events, e.fd ≠ w.fdRead std

/-- Nothing is read any more. -/
structure Closed (w : World) : Prop where
  ended : w.alive = false
  terminated : w.process.started = false
  inOrder : w.inOrder = true ↔ ∀ std, (w.pipe std).content = []

theorem Closing.closed (h : Closing w []) : Closed w where
  ended := h.ended
  terminated := h.terminated
  inOrder := by
    constructor
    · intro horder std
      by_contra hcontent
      obtain ⟨e, he, -⟩ := h.toRead horder std hcontent
      cases he
    · intro hempty
      rw [← Bool.not_eq_false]
      intro horder
      obtain ⟨std, hcontent, -⟩ := h.lost horder
      exact hcontent (hempty std)

theorem Closing.tail {e : PollEvent} {events : List PollEvent} {std : Std}
    (h : Closing w (e :: events)) (hopen : Open w) (hpolled : Polled w (e :: events))
    (hstd : w.fdRead std = e.fd) (hfd : 0 ≤ w.fdRead std) (hreads : Reads w .close std w') :
    Closing w' events where
  ended := hreads.alive.trans h.ended
  terminated := by
    rw [hreads.process]
    exact h.terminated
  toRead := fun horder a hcontent => by
    rw [hreads.inOrder] at horder
    obtain ⟨horder, hread⟩ := Bool.and_eq_true_iff.mp horder
    have hempty : (w'.pipe std).content = [] := by simpa using hread
    have hne : a ≠ std := fun heq => by
      rw [heq] at hcontent
      exact hcontent hempty
    rw [(hreads.others a hne).2] at hcontent
    rw [(hreads.others a hne).1]
    obtain ⟨e', he', heq⟩ := h.toRead horder a hcontent
    rcases List.mem_cons.mp he' with rfl | he'
    · exact absurd (hopen.distinct std a (hstd.trans heq) hfd).symm hne
    · exact ⟨e', he', heq⟩
  lost := fun horder => by
    rw [hreads.inOrder, Bool.and_eq_false_iff] at horder
    rcases horder with horder | hread
    · obtain ⟨a, hcontent, hnone⟩ := h.lost horder
      have hne : a ≠ std := fun heq => hnone e List.mem_cons_self (by rw [heq, hstd])
      rw [← (hreads.others a hne).2] at hcontent
      refine ⟨a, hcontent, fun e' he' => ?_⟩
      rw [(hreads.others a hne).1]
      exact hnone e' (List.mem_cons_of_mem _ he')
    · refine ⟨std, by simpa using hread, fun e' he' heq => ?_⟩
      rcases hreads.fdRead with hsame | hclosed
      · exact hpolled.fd_ne he' (by rw [heq, hsame, hstd])
      · have hpos := (hpolled.opened e' (List.mem_cons_of_mem _ he')).1
        omega

theorem Closing.outside {events : List PollEvent} (h : Closing w events) (ho : Outside w w') :
    Closing w' events where
  ended := ho.ended h.ended
  terminated := by
    rw [ho.process]
    exact h.terminated
  toRead := fun horder std => by
    rw [ho.pipe_eq h.ended, ho.fdRead]
    exact h.toRead (ho.inOrder ▸ horder) std
  lost := fun horder => by
    obtain ⟨std, hcontent, hnone⟩ := h.lost (ho.inOrder ▸ horder)
    refine ⟨std, ?_⟩
    rw [ho.pipe_eq h.ended, ho.fdRead]
    exact ⟨hcontent, hnone⟩

theorem Closed.outside (h : Closed w) (ho : Outside w w') : Closed w' where
  ended := ho.ended h.ended
  terminated := by
    rw [ho.process]
    exact h.terminated
  inOrder := by
    rw [ho.inOrder, h.inOrder]
    exact forall_congr' fun std => by rw [ho.pipe_eq h.ended]

theorem Closed.of_eq (h : Closed w) (halive : w'.alive = w.alive)
    (hprocess : w'.process = w.process) (hpipe : w'.pipe = w.pipe)
    (horder : w'.inOrder = w.inOrder) : Closed w' where
  ended := halive.trans h.ended
  terminated := by
    rw [hprocess]
    exact h.terminated
  inOrder := by
    rw [horder, hpipe]
    exact h.inOrder

/-- All has been read in order so far, and the read ends are open. -/
structure Reading (w : World) : Prop where
  opened : Open w
  inOrder : w.inOrder = true

theorem Reading.outside (h : Reading w) (ho : Outside w w') : Reading w' :=
  ⟨h.opened.outside ho, ho.inOrder.trans h.inOrder⟩

theorem Reading.of_reads {after : After} {std : Std} (h : Reading w) (hafter : after ≠ .close)
    (hopen : Open w') (hreads : Reads w after std w') : Reading w' := by
  refine ⟨hopen, ?_⟩
  rw [hreads.inOrder, h.inOrder]
  simp [hafter]

/-- What holds at each place of `do_execute`, and of the calls of others. -/
def Executing (w : World) : Pc → Prop
  | .idle | .loop | .wait => Reading w
  | .terminate => Reading w ∧ w.alive = false ∧ w.process.started = false
  | .handle .idle events _ | .handle .wait events _ => Reading w ∧ Polled w events
  | .handle .close events _ => Open w ∧ Polled w events ∧ Closing w events
  | .close => Closed w
  | .terminating (.trying 3) => Closed w
  | .returned => Closed w
  | _ => False

theorem Executing.outside {pc : Pc} (h : Executing w pc) (ho : Outside w w') :
    Executing w' pc := by
  unfold Executing at h ⊢
  split at h
  · exact Reading.outside h ho
  · exact Reading.outside h ho
  · exact Reading.outside h ho
  · obtain ⟨hreading, hended, hterminated⟩ := h
    refine ⟨hreading.outside ho, ho.ended hended, ?_⟩
    rw [ho.process]
    exact hterminated
  · exact ⟨h.1.outside ho, h.2.outside ho⟩
  · exact ⟨h.1.outside ho, h.2.outside ho⟩
  · exact ⟨h.1.outside ho, h.2.1.outside ho, h.2.2.outside ho⟩
  · exact Closed.outside h ho
  · exact Closed.outside h ho
  · exact Closed.outside h ho
  · exact h.elim

theorem Waits.open (h : Waits w w') (hopen : Open w) : Open w' := by
  obtain ⟨process, children, rfl⟩ := h.eq
  exact hopen.of_eq rfl rfl fun _ _ => rfl

theorem Waits.reading (h : Waits w w') (hreading : Reading w) : Reading w' := by
  refine ⟨h.open hreading.opened, ?_⟩
  obtain ⟨process, children, rfl⟩ := h.eq
  exact hreading.inOrder

theorem Waits.recorded (h : Waits w w') (hrec : Recorded w) : Recorded w' := by
  obtain ⟨process, children, rfl⟩ := h.eq
  exact hrec.of_eq rfl rfl rfl

theorem Waits.service (h : Waits w w') : w'.service = w.service := by
  obtain ⟨process, children, rfl⟩ := h.eq
  rfl

theorem Watched.ended (h : Watched w) (hstarted : w.process.started = false) :
    w.alive = false := by
  rw [← Bool.not_eq_true]
  intro halive
  rw [(h.alive halive).1] at hstarted
  cases hstarted

/-- What holds in every state of a run. -/
structure Kept (w : World) : Prop where
  recorded : Recorded w
  watched : Watched w

theorem Kept.goto (h : Kept w) (pc : Pc) : Kept { w with pc := pc } :=
  ⟨h.recorded.of_eq rfl rfl rfl, h.watched.alive, h.watched.started⟩

theorem Kept.of_reads {after : After} {std : Std} (h : Kept w) (hrec : Recorded w')
    (hreads : Reads w after std w') : Kept w' := by
  refine ⟨hrec, ?_, ?_⟩
  · rw [hreads.alive, hreads.process, hreads.pid]
    exact h.watched.alive
  · rw [hreads.process]
    exact h.watched.started

/-- A table without slots is that of pipes that were all read. -/
theorem Open.drained_of_not_canReadPipes (h : Open w) (hservice : w.service = idleService)
    (hcan : w.canReadPipes ≠ true) (std : Std) : (w.pipe std).content = [] := by
  refine h.drained std (not_le.mp fun hfd => hcan ?_)
  have hslot := (h.slot_iff (s := ⟨w.fdRead std, pollIn⟩) hfd).mpr ⟨rfl, std, rfl⟩
  rw [canReadPipes, hservice, Bool.and_eq_true]
  exact ⟨rfl, decide_eq_true (List.length_pos_of_mem hslot)⟩

/-- What a step of `do_execute` keeps. -/
def Executes (w : World) : Prop := Kept w ∧ w.service = idleService ∧ Executing w w.pc

theorem executes_wait (hkept : Kept w) (hservice : w.service = idleService) (hreading : Reading w)
    {o : Surroundings} (hstep : (w.waitAny o).map (fun w => { w with
      pc := if w.process.watcher.hasTerminated then .terminate else .loop }) = some w') :
    Executes w' := by
  obtain ⟨v, hwait, rfl⟩ := Option.map_eq_some_iff.mp hstep
  obtain ⟨hwatched, hwaits⟩ := hkept.watched.waitAny hwait
  have hreading' := hwaits.reading hreading
  refine ⟨Kept.goto ⟨hwaits.recorded hkept.recorded, hwatched⟩ _, hwaits.service.trans hservice, ?_⟩
  dsimp only
  split
  · next hterminated =>
    have hstopped : v.process.started = false := by rw [hwatched.started, hterminated]; rfl
    exact ⟨⟨hreading'.opened.of_eq rfl rfl fun _ _ => rfl, hreading'.inOrder⟩,
      hwatched.ended hstopped, hstopped⟩
  · exact ⟨hreading'.opened.of_eq rfl rfl fun _ _ => rfl, hreading'.inOrder⟩

theorem Reading.goto (h : Reading w) (pc : Pc) : Reading { w with pc := pc } :=
  ⟨h.opened.of_eq rfl rfl fun _ _ => rfl, h.inOrder⟩

theorem Closed.goto (h : Closed w) (pc : Pc) : Closed { w with pc := pc } :=
  h.of_eq rfl rfl rfl rfl

theorem Polled.goto {events : List PollEvent} (h : Polled w events) (pc : Pc) :
    Polled { w with pc := pc } events :=
  ⟨h.nodup, h.opened, h.hungUp⟩

theorem executes_handled {after : After} {ret : Nat} {o : Surroundings} (hkept : Kept w)
    (hservice : w.service = idleService) (h : Executing w (.handle after [] ret))
    (hstep : w.handled after ret o = some w') : Executes w' := by
  have hgoto : ∀ v, Kept v → v.service = idleService → Executing v (.handle after [] ret) →
      Executes { v with pc := after.pc ret } := fun v hv hvservice hat => by
    refine ⟨hv.goto _, hvservice, ?_⟩
    cases after with
    | idle => exact hat.1.goto _
    | wait => exact hat.1.goto _
    | close => exact hat.2.2.closed.goto _
    | terminating => exact hat.elim
    | polled => exact hat.elim
  rw [handled] at hstep
  split at hstep
  · obtain rfl := Option.some.inj hstep
    exact hgoto w hkept hservice h
  · split at hstep
    · next hstarted =>
      obtain ⟨v, hwait, rfl⟩ := Option.map_eq_some_iff.mp hstep
      obtain ⟨hwatched, hwaits⟩ := hkept.watched.waitAny hwait
      refine hgoto v ⟨hwaits.recorded hkept.recorded, hwatched⟩ (hwaits.service.trans hservice) ?_
      cases after with
      | idle => exact ⟨hwaits.reading h.1, List.nodup_nil, nofun, nofun⟩
      | wait => exact ⟨hwaits.reading h.1, List.nodup_nil, nofun, nofun⟩
      | close =>
        have hterminated := h.2.2.terminated
        rw [hstarted] at hterminated
        cases hterminated
      | terminating => exact h.elim
      | polled => exact h.elim
    · rw [stopPoll_idle hservice] at hstep
      obtain rfl := Option.some.inj hstep
      exact hgoto w hkept hservice h

theorem executes_handleEvent {after : After} {e : PollEvent} {events : List PollEvent}
    {ret size : Nat} (hkept : Kept w) (hservice : w.service = idleService)
    (h : Executing w (.handle after (e :: events) ret))
    (hstep : w.handleEvent after e size = some w') :
    Executes { w' with pc := .handle after events ret } := by
  have hturn : after ≠ .close → Reading w ∧ Polled w (e :: events) →
      Reading w' ∧ Polled w' events ∧ Kept w' ∧ w'.service = idleService := by
    rintro hafter ⟨hreading, hpolled⟩
    obtain ⟨hopen, hrec, std, hstd, hfd, hreads⟩ :=
      reads_of_handleEvent hreading.opened hkept.recorded hpolled hstep
    exact ⟨hreading.of_reads hafter hopen hreads, hpolled.tail hstd hreads,
      hkept.of_reads hrec hreads, hreads.service.trans hservice⟩
  cases after with
  | idle =>
    obtain ⟨hreading, hpolled, hkept', hservice'⟩ := hturn (by decide) h
    exact ⟨hkept'.goto _, hservice', hreading.goto _, hpolled.goto _⟩
  | wait =>
    obtain ⟨hreading, hpolled, hkept', hservice'⟩ := hturn (by decide) h
    exact ⟨hkept'.goto _, hservice', hreading.goto _, hpolled.goto _⟩
  | close =>
    obtain ⟨hopened, hpolled, hclosing⟩ := h
    obtain ⟨hopen, hrec, std, hstd, hfd, hreads⟩ :=
      reads_of_handleEvent hopened hkept.recorded hpolled hstep
    have hclosing' := hclosing.tail hopened hpolled hstd hfd hreads
    exact ⟨(hkept.of_reads hrec hreads).goto _, hreads.service.trans hservice,
      hopen.of_eq rfl rfl fun _ _ => rfl, (hpolled.tail hstd hreads).goto _,
      ⟨hclosing'.ended, hclosing'.terminated, hclosing'.toRead, hclosing'.lost⟩⟩
  | terminating => exact h.elim
  | polled => exact h.elim

/-- One step of `do_execute`. -/
theorem Executes.next {size : Nat} {o : Surroundings} (h : Executes w)
    (hstep : w.next size o = some w') : Executes w' := by
  obtain ⟨hkept, hservice, hat⟩ := h
  rw [World.next] at hstep
  cases hpc : w.pc with
  | loop =>
    rw [hpc] at hat hstep
    obtain rfl := Option.some.inj hstep
    split
    · exact ⟨hkept.goto _, hservice, hat.goto _, hat.opened.polled.goto _⟩
    · exact ⟨hkept.goto _, hservice, hat.goto _⟩
  | wait =>
    rw [hpc] at hat hstep
    exact executes_wait hkept hservice hat hstep
  | terminate =>
    rw [hpc] at hat hstep
    obtain ⟨hreading, hended, hterminated⟩ := hat
    obtain rfl := Option.some.inj hstep
    split
    · refine ⟨hkept.goto _, hservice, (hreading.goto _).opened, hreading.opened.polled.goto _,
        ⟨hended, hterminated, fun _ std hcontent => ?_, fun horder => ?_⟩⟩
      · refine hreading.opened.exists_event (not_lt.mp fun hneg => ?_) (.inl hcontent)
        exact hcontent (hreading.opened.drained std hneg)
      · exact absurd (horder.symm.trans hreading.inOrder) Bool.false_ne_true
    · next hcan =>
      refine ⟨hkept.goto _, hservice, hended, hterminated, ?_⟩
      exact iff_of_true hreading.inOrder
        (hreading.opened.drained_of_not_canReadPipes hservice hcan)
  | close =>
    rw [hpc] at hat hstep
    rw [stopPoll_idle (by exact hservice)] at hstep
    obtain rfl := Option.some.inj hstep
    exact ⟨⟨hkept.recorded.of_eq rfl rfl rfl, hkept.watched.alive, hkept.watched.started⟩, hservice,
      Closed.of_eq hat rfl rfl rfl rfl⟩
  | terminating t =>
    rw [hpc] at hat hstep
    match t, hat with
    | .trying 3, hat =>
      have hend : Process.World.terminateStep ⟨w.process, w.children, some (.trying 3)⟩ false o
          (.trying 3) = some (⟨w.process, w.children, none⟩,
            ⟨none, none, some (w.process.started == false)⟩) := by
        rw [Process.World.terminateStep, if_pos hat.terminated]
        rfl
      dsimp only at hstep
      rw [hend] at hstep
      obtain rfl := Option.some.inj hstep
      exact ⟨⟨hkept.recorded.of_eq rfl rfl rfl, hkept.watched.alive, hkept.watched.started⟩,
        hservice, Closed.of_eq hat rfl rfl rfl rfl⟩
  | handle after events ret =>
    rw [hpc] at hat hstep
    cases events with
    | nil => exact executes_handled hkept hservice hat hstep
    | cons e events =>
      obtain ⟨v, hevent, rfl⟩ := Option.map_eq_some_iff.mp hstep
      exact executes_handleEvent hkept hservice hat hevent
  | idle | returned =>
    rw [hpc] at hstep
    cases hstep
  | onStart =>
    rw [hpc] at hat
    exact hat.elim
  | starting =>
    rw [hpc] at hat
    exact hat.elim
  | polled ret =>
    rw [hpc] at hat
    exact hat.elim
  | stop after ret =>
    rw [hpc] at hat
    exact hat.elim

/-! ### By `start` -/

/-- The poll runs and was not told to stop. Its start holds the mutex once it has taken it. -/
structure Runs (s : LoopService.World Poll.Pc) : Prop where
  flag : s.flag = false
  called : s.called = true
  stopCalled : s.stopCalled = false
  stopped : s.stopped = false
  stopper : s.service.pc .stopper = .idle
  ctrl : s.service.ctrl.currentState = .running
  waitStop : s.service.waitStop = true
  starter : s.service.pc .starter = .starting ∨
    (s.service.pc .starter = .locked ∨ s.service.pc .starter = .onStart) ∧
      s.service.runningMutex = true
  loop : ∀ ret, s.loop = .looping ret → 0 ≤ ret

/-- `on_start` of the poll is in a poll. -/
structure AtPoll (s : LoopService.World Poll.Pc) : Prop where
  runs : Runs s
  starter : s.service.pc .starter = .onStart
  loop : s.loop = .polling

variable {s s' : LoopService.World Poll.Pc}

theorem runs_start (h : idleService.step loopService .start = some s) : Runs s := by
  obtain rfl := Option.some.inj h
  exact ⟨rfl, rfl, rfl, rfl, rfl, rfl, rfl, .inl rfl, nofun⟩

/-- A poll that does not fail goes on as long as it is not told to stop. -/
theorem Runs.nextStart (h : Runs s) (ret : Nat)
    (hstep : s.step loopService (.nextStart ret) = some s') : Runs s' := by
  rcases h.starter with hstarting | ⟨hlocked | honStart, hmutex⟩
  · have hne : s.service.pc .starter ≠ .onStart := by
      rw [hstarting]
      rintro ⟨⟩
    rw [LoopService.World.step, if_neg hne, ABlockingService.World.next, hstarting] at hstep
    obtain ⟨service, hnext, rfl⟩ := Option.map_eq_some_iff.mp hstep
    obtain ⟨-, hnext⟩ := Option.ite_none_left_eq_some.mp hnext
    obtain rfl := Option.some.inj hnext
    exact { h with
      stopper := by simpa [ABlockingService.World.goto] using h.stopper
      starter := .inr ⟨.inl (by simp [ABlockingService.World.goto]), rfl⟩ }
  · have hne : s.service.pc .starter ≠ .onStart := by
      rw [hlocked]
      rintro ⟨⟩
    rw [LoopService.World.step, if_neg hne, ABlockingService.World.next, hlocked] at hstep
    obtain ⟨service, hnext, rfl⟩ := Option.map_eq_some_iff.mp hstep
    obtain rfl := Option.some.inj hnext
    exact { h with
      stopper := by simpa [ABlockingService.World.goto] using h.stopper
      starter := .inr ⟨.inr (by simp [ABlockingService.World.goto]), hmutex⟩ }
  · have hnext : loopService.next s.loop s.flag ret = Poll.onStart 5 s.loop false ret := by
      rw [h.flag]
      rfl
    rw [LoopService.World.step, if_pos honStart, LoopService.World.nextLoop, hnext] at hstep
    cases hloop : s.loop with
    | entered =>
      rw [hloop, Poll.onStart, if_neg (by decide)] at hstep
      obtain ⟨service, hready, rfl⟩ := Option.map_eq_some_iff.mp hstep
      rw [ABlockingService.World.step, honStart] at hready
      obtain rfl := Option.some.inj hready
      exact { h with loop := by rintro _ ⟨⟩ }
    | ready =>
      rw [hloop] at hstep
      obtain rfl := Option.some.inj hstep
      exact { h with
        flag := rfl
        loop := fun ret' heq => (Poll.Pc.looping.inj heq) ▸ le_rfl }
    | looping ret' =>
      rw [hloop, Poll.onStart, if_pos ⟨h.loop ret' hloop, rfl⟩] at hstep
      obtain rfl := Option.some.inj hstep
      exact { h with loop := by rintro _ ⟨⟩ }
    | polling =>
      rw [hloop] at hstep
      obtain rfl := Option.some.inj hstep
      exact { h with loop := fun ret' heq => (Poll.Pc.looping.inj heq) ▸ Int.natCast_nonneg ret }

/-- The thread that runs the poll waits for the mutex that it holds. -/
structure StopsItself (s : LoopService.World Poll.Pc) : Prop where
  stopper : s.service.pc .stopper = .onStop ∨
    (∃ ret, s.service.pc .stopper = .stopped ret ∨ s.service.pc .stopper = .waiting ret)
  waitStop : s.service.waitStop = true
  runningMutex : s.service.runningMutex = true

theorem AtPoll.stop (h : AtPoll s) (hstep : s.step loopService .stop = some s') :
    StopsItself s' ∧ s'.stopCalled = true := by
  rw [LoopService.World.step, h.runs.stopCalled, if_neg Bool.false_ne_true] at hstep
  obtain ⟨service, hcall, rfl⟩ := Option.map_eq_some_iff.mp hstep
  have hmutex : s.service.runningMutex = true := by
    rcases h.runs.starter with hstarting | ⟨-, hmutex⟩
    · rw [h.starter] at hstarting
      cases hstarting
    · exact hmutex
  rw [ABlockingService.World.step, h.runs.stopper] at hcall
  have haccepted : s.service.ctrl.opStart .stop = (⟨.stopped⟩, true) := if_pos h.runs.ctrl
  dsimp only [ABlockingService.Method.id] at hcall
  rw [haccepted] at hcall
  obtain rfl := Option.some.inj hcall
  have hpc : (s.service.goto .stopper .onStop).pc .stopper = .onStop := by simp
  have hne : (s.service.goto .stopper .onStop).pc .stopper ≠ .idle := by
    rw [hpc]
    rintro ⟨⟩
  exact ⟨⟨.inl hpc, h.runs.waitStop, hmutex⟩, decide_eq_true hne⟩

/-- The stop does not return. -/
theorem StopsItself.nextStop (h : StopsItself s)
    (hstep : s.step loopService .nextStop = some s') :
    StopsItself s' ∧ s'.service.pc .stopper ≠ .idle := by
  rcases h.stopper with honStop | ⟨ret, hstopped | hwaiting⟩
  · rw [LoopService.World.step, if_pos honStop, ABlockingService.World.next, honStop] at hstep
    obtain rfl := Option.some.inj hstep
    have hpc : (s.service.goto .stopper (.stopped true)).pc .stopper = .stopped true := by simp
    exact ⟨⟨.inr ⟨true, .inl hpc⟩, h.waitStop, h.runningMutex⟩, by
      dsimp only
      rw [hpc]
      rintro ⟨⟩⟩
  · have hne : s.service.pc .stopper ≠ .onStop := by
      rw [hstopped]
      rintro ⟨⟩
    rw [LoopService.World.step, if_neg hne, ABlockingService.World.next, hstopped] at hstep
    dsimp only at hstep
    rw [h.waitStop, if_pos rfl] at hstep
    obtain rfl := Option.some.inj hstep
    have hpc : (s.service.goto .stopper (.waiting ret)).pc .stopper = .waiting ret := by simp
    exact ⟨⟨.inr ⟨ret, .inr hpc⟩, h.waitStop, h.runningMutex⟩, by
      change (s.service.goto .stopper (.waiting ret)).pc .stopper ≠ .idle
      rw [hpc]
      rintro ⟨⟩⟩
  · have hne : s.service.pc .stopper ≠ .onStop := by
      rw [hwaiting]
      rintro ⟨⟩
    rw [LoopService.World.step, if_neg hne, ABlockingService.World.next, hwaiting] at hstep
    dsimp only at hstep
    rw [h.runningMutex, if_pos rfl] at hstep
    cases hstep

/-- A poll has timed out after the process was seen to end only if there is nothing to read. -/
def TimedOut (w : World) (events : List PollEvent) (ret : Nat) : Prop :=
  ret = 0 → events = [] ∧ (w.process.started = false → ∀ std, w.fdRead std < 0)

/-- All was read before the poll is told to stop. -/
structure Drained (w : World) : Prop where
  ended : w.alive = false
  inOrder : w.inOrder = true
  empty : ∀ std, (w.pipe std).content = []

/-- What holds at each place of `start`. -/
def Starting (w : World) : Pc → Prop
  | .onStart => w.service = idleService ∧ Reading w ∧ 0 < w.poll.maxFds
  | .starting => Runs w.service ∧ Reading w
  | .polled _ => AtPoll w.service ∧ Reading w
  | .handle .polled events ret =>
      AtPoll w.service ∧ Reading w ∧ Polled w events ∧ TimedOut w events ret
  | .stop .polled _ => StopsItself w.service ∧ Drained w
  | _ => False

theorem Starting.outside {pc : Pc} (h : Starting w pc) (ho : Outside w w') :
    Starting w' pc := by
  unfold Starting at h ⊢
  split at h
  · rw [ho.service, ho.poll]
    exact ⟨h.1, h.2.1.outside ho, h.2.2⟩
  · rw [ho.service]
    exact ⟨h.1, h.2.outside ho⟩
  · rw [ho.service]
    exact ⟨h.1, h.2.outside ho⟩
  · rw [ho.service, TimedOut, ho.process, ho.fdRead]
    exact ⟨h.1, h.2.1.outside ho, h.2.2.1.outside ho, h.2.2.2⟩
  · rw [ho.service]
    refine ⟨h.1, ho.ended h.2.ended, ho.inOrder.trans h.2.inOrder, fun std => ?_⟩
    rw [ho.pipe_eq h.2.ended]
    exact h.2.empty std
  · exact h.elim

/-- What a step of `start` keeps. -/
def Starts (w : World) : Prop := Kept w ∧ Starting w w.pc

theorem starts_pollThen (hkept : Kept w) (hservice : AtPoll w.service) (hreading : Reading w) :
    Starts (w.pollThen .polled) := by
  refine ⟨hkept.goto _, hservice, hreading.goto _, hreading.opened.polled.goto _,
    fun hnone => ⟨List.length_eq_zero_iff.mp hnone, fun hstarted std => not_le.mp fun hfd => ?_⟩⟩
  obtain ⟨e, he, -⟩ :=
    hreading.opened.exists_event hfd (.inr (hkept.watched.ended hstarted))
  rw [List.length_eq_zero_iff.mp hnone] at he
  cases he

theorem starts_handled {ret : Nat} {o : Surroundings} (hkept : Kept w)
    (h : Starting w (.handle .polled [] ret)) (hstep : w.handled .polled ret o = some w') :
    Starts w' := by
  obtain ⟨hservice, hreading, -, htimedOut⟩ := h
  rw [handled] at hstep
  split at hstep
  · obtain rfl := Option.some.inj hstep
    exact ⟨hkept.goto _, hservice, hreading.goto _⟩
  · next hret =>
    split at hstep
    · obtain ⟨v, hwait, rfl⟩ := Option.map_eq_some_iff.mp hstep
      obtain ⟨hwatched, hwaits⟩ := hkept.watched.waitAny hwait
      refine ⟨Kept.goto ⟨hwaits.recorded hkept.recorded, hwatched⟩ _, ?_,
        (hwaits.reading hreading).goto _⟩
      rw [hwaits.service]
      exact hservice
    · next hstarted =>
      rw [Bool.not_eq_true] at hstarted
      obtain ⟨service, hstop, rfl⟩ := Option.map_eq_some_iff.mp hstep
      obtain ⟨hstops, hcalled⟩ := hservice.stop hstop
      have hclosed := (htimedOut (not_not.mp hret)).2 hstarted
      rw [hcalled, if_pos rfl]
      exact ⟨⟨hkept.recorded.of_eq rfl rfl rfl, hkept.watched.alive, hkept.watched.started⟩, hstops,
        hkept.watched.ended hstarted, hreading.inOrder,
        fun std => hreading.opened.drained std (hclosed std)⟩

theorem starts_handleEvent {after : After} {e : PollEvent} {events : List PollEvent}
    {ret size : Nat} (hkept : Kept w) (h : Starting w (.handle after (e :: events) ret))
    (hstep : w.handleEvent after e size = some w') :
    Starts { w' with pc := .handle after events ret } := by
  cases after with
  | polled =>
    obtain ⟨hservice, hreading, hpolled, htimedOut⟩ := h
    obtain ⟨hopen, hrec, std, hstd, hfd, hreads⟩ :=
      reads_of_handleEvent hreading.opened hkept.recorded hpolled hstep
    refine ⟨(hkept.of_reads hrec hreads).goto _, ?_,
      (hreading.of_reads (by decide) hopen hreads).goto _, (hpolled.tail hstd hreads).goto _,
      fun hnone => ?_⟩
    · rw [hreads.service]
      exact hservice
    · cases (htimedOut hnone).1
  | idle => exact h.elim
  | wait => exact h.elim
  | close => exact h.elim
  | terminating => exact h.elim

theorem Reading.withService (h : Reading w) (service : LoopService.World Poll.Pc) (pc : Pc) :
    Reading { w with service := service, pc := pc } :=
  ⟨h.opened.of_eq rfl rfl fun _ _ => rfl, h.inOrder⟩

theorem Kept.withService (h : Kept w) (service : LoopService.World Poll.Pc) (pc : Pc) :
    Kept { w with service := service, pc := pc } :=
  ⟨h.recorded.of_eq rfl rfl rfl, h.watched.alive, h.watched.started⟩

theorem Runs.starter_ne_idle (h : Runs s) : s.service.pc .starter ≠ .idle := by
  rcases h.starter with hpc | ⟨hpc | hpc, -⟩ <;>
    · rw [hpc]
      nofun

/-- One step of `start`. -/
theorem Starts.next {size : Nat} {o : Surroundings} (h : Starts w)
    (hstep : w.next size o = some w') : Starts w' := by
  obtain ⟨hkept, hat⟩ := h
  rw [World.next] at hstep
  cases hpc : w.pc with
  | onStart =>
    rw [hpc] at hat hstep
    obtain ⟨hservice, hreading, hmax⟩ := hat
    dsimp only at hstep
    rw [if_pos hmax, hservice] at hstep
    obtain ⟨service, hstart, rfl⟩ := Option.map_eq_some_iff.mp hstep
    have hruns := runs_start hstart
    rw [hruns.called, if_pos rfl]
    exact ⟨hkept.withService _ _, hruns, hreading.withService _ _⟩
  | starting =>
    rw [hpc] at hat hstep
    obtain ⟨hruns, hreading⟩ := hat
    dsimp only at hstep
    split at hstep
    · next hpoll =>
      obtain rfl := Option.some.inj hstep
      exact starts_pollThen hkept ⟨hruns, hpoll.1, hpoll.2⟩ hreading
    · obtain ⟨service, hnext, rfl⟩ := Option.map_eq_some_iff.mp hstep
      have hruns' : Runs service := hruns.nextStart 0 hnext
      rw [if_neg hruns'.starter_ne_idle]
      exact ⟨hkept.withService _ _, hruns', hreading.withService _ _⟩
  | polled ret =>
    rw [hpc] at hat hstep
    obtain ⟨service, hnext, rfl⟩ := Option.map_eq_some_iff.mp hstep
    exact ⟨hkept.withService _ _, hat.1.runs.nextStart ret hnext, hat.2.withService _ _⟩
  | handle after events ret =>
    rw [hpc] at hat hstep
    cases events with
    | nil =>
      cases after with
      | polled => exact starts_handled hkept hat hstep
      | idle => exact hat.elim
      | wait => exact hat.elim
      | close => exact hat.elim
      | terminating => exact hat.elim
    | cons e events =>
      obtain ⟨v, hevent, rfl⟩ := Option.map_eq_some_iff.mp hstep
      exact starts_handleEvent hkept hat hevent
  | stop after ret =>
    rw [hpc] at hat hstep
    cases after with
    | polled =>
      obtain ⟨service, hnext, rfl⟩ := Option.map_eq_some_iff.mp hstep
      obtain ⟨hstops, hne⟩ := hat.1.nextStop hnext
      rw [if_neg hne]
      exact ⟨hkept.withService _ _, hstops, hat.2.ended, hat.2.inOrder, hat.2.empty⟩
    | idle => exact hat.elim
    | wait => exact hat.elim
    | close => exact hat.elim
    | terminating => exact hat.elim
  | returned =>
    rw [hpc] at hstep
    cases hstep
  | idle =>
    rw [hpc] at hat
    exact hat.elim
  | loop =>
    rw [hpc] at hat
    exact hat.elim
  | wait =>
    rw [hpc] at hat
    exact hat.elim
  | terminate =>
    rw [hpc] at hat
    exact hat.elim
  | close =>
    rw [hpc] at hat
    exact hat.elim
  | terminating t =>
    rw [hpc] at hat
    exact hat.elim

/-! ### Runs -/

theorem length_getOrAddFd_le (l : List PollFd) (fd : Int) (maxFds : Nat) :
    (Poll.getOrAddFd l fd maxFds).1.length ≤ l.length + 1 := by
  rw [Poll.getOrAddFd]
  split
  · exact Nat.le_succ _
  · split
    · exact Nat.le_succ _
    · split
      · exact Nat.le_succ _
      · split
        · rw [List.length_append, List.length_singleton]
        · exact Nat.le_succ _

theorem setReadFd_fits (p : Poll) (fd : Int) :
    (p.setReadFd fd).1.lstFds.length ≤ p.lstFds.length + 1 ∧
      (p.setReadFd fd).1.maxFds = p.maxFds := by
  have hlength := length_getOrAddFd_le p.lstFds fd p.maxFds
  rw [Poll.setReadFd, Poll.change]
  split
  · next lstFds i heq =>
    rw [heq] at hlength
    exact ⟨by rwa [List.length_modify], rfl⟩
  · next lstFds heq =>
    rw [heq] at hlength
    exact ⟨hlength, rfl⟩

/-- A read end that is not there is refused by the table, and one that finds room is polled. -/
theorem sound_setReadFd {p : Poll} {interests : Int → Poll.Interest} {fds : Int → Prop}
    (h : (∃ polled, Poll.Sound ⟨p, interests⟩ polled) ∧
      ∀ g, (interests g).read = true ↔ 0 ≤ g ∧ fds g) (fd : Int)
    (hroom : 0 ≤ fd → p.lstFds.length < p.maxFds) :
    ∃ interests', (∃ polled, Poll.Sound ⟨(p.setReadFd fd).1, interests'⟩ polled) ∧
      ∀ g, (interests' g).read = true ↔ 0 ≤ g ∧ (fds g ∨ fd = g) := by
  obtain ⟨⟨polled, hsound⟩, hread⟩ := h
  refine ⟨_, hsound.setRead fd, fun g => ?_⟩
  by_cases hfd : fd < 0
  · have hret : (p.setReadFd fd).2 = false := by rw [Poll.setReadFd, Poll.change_of_neg hfd]
    rw [Poll.Op.map, hret, if_neg Bool.false_ne_true, hread]
    refine and_congr_right fun hg => (or_iff_left fun heq => ?_).symm
    omega
  · have hret : (p.setReadFd fd).2 = true :=
      (hsound.1.change_accepted (not_lt.mp hfd) _).mpr (.inr (hroom (not_lt.mp hfd)))
    rw [Poll.Op.map, hret, if_pos rfl]
    by_cases heq : g = fd
    · subst heq
      rw [Function.update_self]
      exact iff_of_true rfl ⟨not_lt.mp hfd, .inr rfl⟩
    · rw [Function.update_of_ne heq, hread, or_iff_left (Ne.symm heq)]

theorem exists_sound_initPoller {stdoutFd stderrFd : Int}
    (hfds : 0 ≤ stdoutFd ∨ 0 ≤ stderrFd) :
    (∃ interests, (∃ polled, Poll.Sound ⟨initPoller stdoutFd stderrFd, interests⟩ polled) ∧
      ∀ g, (interests g).read = true ↔ 0 ≤ g ∧ ((False ∨ stdoutFd = g) ∨ stderrFd = g)) ∧
      0 < (initPoller stdoutFd stderrFd).maxFds := by
  obtain ⟨n, hn⟩ : ∃ n : Nat, n = (if 0 ≤ stdoutFd then 1 else 0) + (if 0 ≤ stderrFd then 1 else 0) :=
    ⟨_, rfl⟩
  have hpos : 0 < n := by
    rcases hfds with hfd | hfd
    · rw [hn, if_pos hfd]
      omega
    · rw [hn, if_pos hfd]
      omega
  have hpoller : initPoller stdoutFd stderrFd =
      (((Poll.create n).setReadFd stdoutFd).1.setReadFd stderrFd).1 := by
    rw [initPoller, ← hn]
    exact if_pos hpos
  obtain ⟨hlength, hmax⟩ := setReadFd_fits (Poll.create n) stdoutFd
  have hmax' := (setReadFd_fits ((Poll.create n).setReadFd stdoutFd).1 stderrFd).2
  rw [hpoller, hmax', hmax]
  refine ⟨?_, hpos⟩
  have hcreate : (∃ polled, Poll.Sound ⟨Poll.create n, fun _ => .nothing⟩ polled) ∧
      ∀ g : Int, ((fun _ => .nothing : Int → Poll.Interest) g).read = true ↔
        0 ≤ g ∧ (fun _ => False) g :=
    ⟨⟨_, Poll.sound_create n⟩, fun g => by simp [Poll.Interest.nothing]⟩
  obtain ⟨interests, hsound⟩ := sound_setReadFd hcreate stdoutFd fun _ => hpos
  refine sound_setReadFd hsound stderrFd fun herr => ?_
  rw [hmax]
  change _ < n
  by_cases hout : 0 ≤ stdoutFd
  · have hboth : 1 < n := by
      rw [if_pos hout, if_pos herr] at hn
      omega
    exact Nat.lt_of_le_of_lt hlength hboth
  · rw [Poll.setReadFd, Poll.change_of_neg (not_le.mp hout)]
    exact hpos

theorem open_launch {runner : Runner} {pid stdoutFd stderrFd : Int}
    (hfds : 0 ≤ stdoutFd ∨ 0 ≤ stderrFd) (hne : 0 ≤ stdoutFd → stdoutFd ≠ stderrFd) :
    Open (launch runner pid stdoutFd stderrFd) where
  sound := by
    obtain ⟨⟨interests, ⟨polled, hsound⟩, hread⟩, -⟩ := exists_sound_initPoller hfds
    refine ⟨interests, polled, hsound, fun fd => ?_⟩
    rw [hread, false_or]
    refine and_congr_right fun _ => ⟨?_, ?_⟩
    · rintro (heq | heq)
      · exact ⟨.out, heq⟩
      · exact ⟨.err, heq⟩
    · rintro ⟨std, heq⟩
      cases std with
      | out => exact .inl heq
      | err => exact .inr heq
  distinct := fun a b heq hfd => by
    cases a with
    | out =>
      cases b with
      | out => rfl
      | err => exact absurd heq (hne hfd)
    | err =>
      cases b with
      | out => exact absurd heq.symm (hne (le_of_le_of_eq hfd heq))
      | err => rfl
  drained := fun _ _ => rfl

/-- A step is one of the parent or one of the child. -/
theorem next_or_outside {a : Action} (h : w.step a = some w') :
    (∃ size o, w.next size o = some w') ∨ Outside w w' ∧ (Recorded w → Recorded w') := by
  cases a with
  | write std bytes => exact .inr ⟨outside_write h, fun hrec => hrec.write h⟩
  | life event =>
    refine .inr ⟨outside_life h, fun hrec => ?_⟩
    obtain ⟨child, -, h⟩ := Option.bind_eq_some_iff.mp h
    obtain ⟨child', -, rfl⟩ := Option.map_eq_some_iff.mp h
    exact hrec.of_eq rfl rfl rfl
  | next size o => exact .inl ⟨size, o, h⟩

theorem Executes.step (h : Executes w) {a : Action} (hstep : w.step a = some w') :
    Executes w' := by
  rcases next_or_outside hstep with ⟨size, o, hnext⟩ | ⟨ho, hrec⟩
  · exact h.next hnext
  · refine ⟨⟨hrec h.1.recorded, h.1.watched.outside ho⟩, ho.service.trans h.2.1, ?_⟩
    rw [ho.pc]
    exact h.2.2.outside ho

theorem Starts.step (h : Starts w) {a : Action} (hstep : w.step a = some w') : Starts w' := by
  rcases next_or_outside hstep with ⟨size, o, hnext⟩ | ⟨ho, hrec⟩
  · exact h.next hnext
  · refine ⟨⟨hrec h.1.recorded, h.1.watched.outside ho⟩, ?_⟩
    rw [ho.pc]
    exact h.2.outside ho

/-- What holds of a run. -/
def Inv (w : World) : Runner → Prop
  | .execute => Executes w
  | .start => Starts w

theorem reading_launch {runner : Runner} (h : Launched runner w) : Kept w ∧ Reading w := by
  obtain ⟨pid, stdoutFd, stderrFd, hfds, hne, rfl⟩ := h
  exact ⟨⟨⟨fun _ => rfl, fun _ => rfl⟩, fun _ => ⟨rfl, rfl⟩, rfl⟩, open_launch hfds hne, rfl⟩

theorem inv_of_launched {runner : Runner} (h : Launched runner w) : Inv w runner := by
  obtain ⟨hkept, hreading⟩ := reading_launch h
  obtain ⟨pid, stdoutFd, stderrFd, hfds, hne, rfl⟩ := h
  cases runner with
  | execute => exact ⟨hkept, rfl, hreading⟩
  | start => exact ⟨hkept, rfl, hreading, (exists_sound_initPoller hfds).2⟩

theorem inv_of_reachable {runner : Runner} (h : Reachable runner w) : Inv w runner := by
  refine Transition.Reaches.invariant (I := fun w => Inv w runner)
    (fun w hw => inv_of_launched hw) (fun w a w' hinv _ hstep => ?_) h
  cases runner with
  | execute => exact Executes.step hinv hstep
  | start => exact Starts.step hinv hstep

/-- The output is complete if and only if the last reads take all that there is. -/
theorem isComplete_iff_inOrder {runner : Runner} (h : Reachable runner w) (hended : w.Ended) :
    w.IsComplete ↔ w.inOrder = true := by
  have hinv := inv_of_reachable h
  cases runner with
  | execute =>
    obtain ⟨hkept, hservice, hat⟩ := hinv
    rcases hended with hpc | hstopped
    · rw [hpc] at hat
      rw [hkept.recorded.isComplete_iff, hat.inOrder]
    · rw [hservice] at hstopped
      cases hstopped
  | start =>
    obtain ⟨hkept, hat⟩ := hinv
    rw [hkept.recorded.isComplete_iff]
    have hdrained : Drained w := by
      rcases hended with hpc | hstopped
      · rw [hpc] at hat
        exact hat.elim
      · unfold Starting at hat
        split at hat
        · rw [hat.1] at hstopped
          cases hstopped
        · rw [hat.1.stopped] at hstopped
          cases hstopped
        · rw [hat.1.runs.stopped] at hstopped
          cases hstopped
        · rw [hat.1.runs.stopped] at hstopped
          cases hstopped
        · exact hat.2
        · exact hat.elim
    exact iff_of_true hdrained.empty hdrained.inOrder

theorem exists_reachable (runner : Runner) (hw : Launched runner w) (as : List Action)
    {P : World → Prop} [DecidablePred P]
    (h : (Transition.runs step w as).any (fun v => decide (P v)) = true) :
    ∃ v, Reachable runner v ∧ P v :=
  Transition.Reaches.exists_of_runs hw h

/-! ### Calls of others -/

theorem Executes.readPipes (h : Executes w) (hpc : w.pc = .idle) :
    Executes w.readPipes ∧ (w.readPipes.pc = .idle ∨
      ∃ events ret, w.readPipes.pc = .handle .idle events ret) := by
  obtain ⟨hkept, hservice, hat⟩ := h
  rw [World.readPipes]
  split
  · rw [hpc] at hat
    exact ⟨⟨hkept.goto _, hservice, Reading.goto hat _, hat.opened.polled.goto _⟩,
      .inr ⟨_, _, rfl⟩⟩
  · exact ⟨⟨hkept, hservice, hat⟩, .inl hpc⟩

/-- The process is terminated once a wait has seen the end of the child. -/
theorem Executes.terminate (h : Executes w) (hpc : w.pc = .idle)
    (hstarted : w.process.started = false) : Executes w.terminate := by
  obtain ⟨hkept, hservice, hat⟩ := h
  rw [hpc] at hat
  exact ⟨hkept.goto _, hservice, Reading.goto hat _, hkept.watched.ended hstarted, hstarted⟩

theorem next_reading (hservice : w.service = idleService) {events : List PollEvent} {ret : Nat}
    (hpc : w.pc = .handle .idle events ret) {size : Nat} {o : Surroundings}
    (hstep : w.next size o = some w') :
    w'.pc = .idle ∨ ∃ events ret, w'.pc = .handle .idle events ret := by
  rw [World.next, hpc] at hstep
  cases events with
  | nil =>
    left
    change w.handled .idle ret o = some w' at hstep
    rw [handled] at hstep
    split at hstep
    · obtain rfl := Option.some.inj hstep
      rfl
    · split at hstep
      · obtain ⟨v, -, rfl⟩ := Option.map_eq_some_iff.mp hstep
        rfl
      · rw [stopPoll_idle hservice] at hstep
        obtain rfl := Option.some.inj hstep
        rfl
  | cons e events =>
    obtain ⟨v, -, rfl⟩ := Option.map_eq_some_iff.mp hstep
    exact .inr ⟨events, ret, rfl⟩

/-- The places of `terminate`. -/
def Terminates : Pc → Prop
  | .terminate | .close | .terminating _ | .handle .close _ _ | .returned => True
  | _ => False

theorem next_terminates (hservice : w.service = idleService) (hpc : Terminates w.pc) {size : Nat}
    {o : Surroundings} (hstep : w.next size o = some w') : Terminates w'.pc := by
  rw [World.next] at hstep
  cases hplace : w.pc with
  | terminate =>
    rw [hplace] at hstep
    obtain rfl := Option.some.inj hstep
    split <;> trivial
  | close =>
    rw [hplace] at hstep
    rw [stopPoll_idle (by exact hservice)] at hstep
    obtain rfl := Option.some.inj hstep
    trivial
  | terminating t =>
    rw [hplace] at hstep
    obtain ⟨⟨v, out⟩, -, rfl⟩ := Option.map_eq_some_iff.mp hstep
    dsimp only
    cases v.terminating <;> trivial
  | handle after events ret =>
    rw [hplace] at hpc hstep
    cases after with
    | close =>
      cases events with
      | nil =>
        change w.handled .close ret o = some w' at hstep
        rw [handled] at hstep
        split at hstep
        · obtain rfl := Option.some.inj hstep
          trivial
        · split at hstep
          · obtain ⟨v, -, rfl⟩ := Option.map_eq_some_iff.mp hstep
            trivial
          · rw [stopPoll_idle hservice] at hstep
            obtain rfl := Option.some.inj hstep
            trivial
      | cons e events =>
        obtain ⟨v, -, rfl⟩ := Option.map_eq_some_iff.mp hstep
        trivial
    | idle => exact hpc.elim
    | wait => exact hpc.elim
    | terminating => exact hpc.elim
    | polled => exact hpc.elim
  | returned =>
    rw [hplace] at hstep
    cases hstep
  | idle | loop | wait | onStart | starting | polled _ | stop _ _ =>
    rw [hplace] at hpc
    exact hpc.elim

theorem Executes.isComplete (h : Executes w) (hpc : w.pc = .returned) (horder : w.inOrder = true) :
    w.IsComplete := by
  obtain ⟨hkept, -, hat⟩ := h
  rw [hpc] at hat
  exact hkept.recorded.isComplete_iff.mpr (hat.inOrder.mp horder)

/-! ### Two children -/

/-- A wait meets nothing. -/
def calm : Surroundings := ⟨false, ⟨0, 0⟩⟩

/-- Both streams are redirected. What is written to one of them last is read by `terminate`. -/
theorem isComplete_tail : ∃ w : World, w.pc = .returned ∧ w.written .out = [1, 2, 3] ∧
    w.written .err = [4] ∧ w.IsComplete := by
  obtain ⟨w, hw, hpc, horder, hwritten⟩ := exists_reachable .execute
    ⟨7, 3, 4, .inl (by decide), by decide, rfl⟩
    ([.write .out [1], .write .err [4]] ++ List.replicate 5 (.next 1 calm) ++
      [.write .out [2, 3], .life (.ended (.exited 0)), .next 2 calm, .next 2 calm, .next 2 calm] ++
      List.replicate 7 (.next 2 calm))
    (P := fun w => w.pc = .returned ∧ w.inOrder = true ∧ w.written .out = [1, 2, 3] ∧
      w.written .err = [4]) (by decide +kernel)
  exact ⟨w, hpc, hwritten.1, hwritten.2, (isComplete_iff_inOrder hw (.inl hpc)).mpr horder⟩

/-- The child writes one byte more than the buffer holds, and ends before the next wait. -/
theorem not_isComplete_burst :
    ¬ ∀ (runner : Runner) (w : World), Reachable runner w → w.pc = .returned → w.IsComplete := by
  intro h
  obtain ⟨w, hw, hpc, hlength⟩ := exists_reachable .execute
    ⟨7, 3, -1, .inl (by decide), by decide, rfl⟩
    ([.next 0 calm, .next 0 calm, .write .out (List.replicate 2049 0),
      .life (.ended (.exited 0)), .next 0 calm, .next 0 calm, .next 2048 calm] ++
      List.replicate 3 (.next 0 calm))
    (P := fun w => w.pc = .returned ∧
      (w.pieces .out).flatten.length ≠ (w.written .out).length) (by decide +kernel)
  exact hlength (congrArg List.length (h .execute w hw hpc .out))

end Sihd.Sys.ProcessOutput.World
