import Sihd.Lib.Ledger
import Sihd.Lib.Transition

/-!
# The safe queue

Every operation of a queue is one critical section under its mutex, so a run of
any number of threads is a list of operations. `pop` and `wait_for_space` wait
as long as their condition does not hold. The log of a run has the elements that
were pushed, popped and removed, in the order in which this happened.
-/

namespace Sihd.Util

structure SafeQueue (α : Type) where
  terminated : Bool
  queue : List α

namespace SafeQueue

variable {α : Type}

inductive Op (α : Type) where
  | push (value : α) (maxSize : Nat)
  | tryPop
  | pop
  | waitForSpace (queueSize : Nat)
  | clear
  | terminate

inductive Result (α : Type) where
  | pushed (accepted : Bool)
  | popped (value : Option α)
  | invalidArgument
  | space (enough : Bool)
  | done

def init : SafeQueue α := ⟨false, []⟩

def push (q : SafeQueue α) (value : α) (maxSize : Nat) : SafeQueue α × Result α :=
  if maxSize = 0 ∨ q.queue.length < maxSize then
    ({ q with queue := q.queue ++ [value] }, .pushed true)
  else (q, .pushed false)

def tryPop (q : SafeQueue α) : SafeQueue α × Result α :=
  match q.queue with
  | [] => (q, .popped none)
  | value :: rest =>
      if q.terminated then (q, .popped none)
      else ({ q with queue := rest }, .popped (some value))

/-- The wait ends when the queue is terminated or has an element. -/
def pop (q : SafeQueue α) : Option (SafeQueue α × Result α) :=
  if q.terminated then some (q, .invalidArgument)
  else
    match q.queue with
    | [] => none
    | value :: rest => some ({ q with queue := rest }, .popped (some value))

def waitForSpace (q : SafeQueue α) (queueSize : Nat) : Option (SafeQueue α × Result α) :=
  if q.terminated ∨ q.queue.length < queueSize then
    some (q, .space (q.queue.length < queueSize))
  else none

/-- The critical section of an operation, when it does not wait. -/
def step (q : SafeQueue α) : Op α → Option (SafeQueue α × Result α)
  | .push value maxSize => some (q.push value maxSize)
  | .tryPop => some q.tryPop
  | .pop => q.pop
  | .waitForSpace queueSize => q.waitForSpace queueSize
  | .clear => some ({ q with queue := [] }, .done)
  | .terminate => some (⟨true, []⟩, .done)

def Op.isPush : Op α → Bool
  | .push _ _ => true
  | _ => false

/-! ### Logs -/

structure Log (α : Type) where
  q : SafeQueue α
  pushed : List α
  popped : List α
  removed : List α

namespace Log

def init : Log α := ⟨SafeQueue.init, [], [], []⟩

def pushedBy : Op α → Result α → List α
  | .push value _, .pushed true => [value]
  | _, _ => []

def poppedBy : Result α → List α
  | .popped (some value) => [value]
  | _ => []

def removedBy (q : SafeQueue α) : Op α → List α
  | .clear => q.queue
  | .terminate => q.queue
  | _ => []

def step (s : Log α) (op : Op α) : Option (Log α) :=
  (s.q.step op).map fun p =>
    { q := p.1
      pushed := s.pushed ++ pushedBy op p.2
      popped := s.popped ++ poppedBy p.2
      removed := s.removed ++ removedBy s.q op }

/-- A run of operations from a new queue. -/
def run (ops : List (Op α)) : Option (Log α) := Transition.runs step init ops

end Log

/-- What an operation can do to a log. -/
inductive Change (s : Log α) : Op α → Log α → Prop where
  | push {value : α} {maxSize : Nat} (hroom : maxSize = 0 ∨ s.q.queue.length < maxSize) :
      Change s (.push value maxSize)
        { s with q := { s.q with queue := s.q.queue ++ [value] }, pushed := s.pushed ++ [value] }
  | full {value : α} {maxSize : Nat} (hfull : maxSize ≠ 0) (hle : maxSize ≤ s.q.queue.length) :
      Change s (.push value maxSize) s
  | take {op : Op α} {value : α} {rest : List α} (hop : op.isPush = false)
      (hopen : s.q.terminated = false) (hqueue : s.q.queue = value :: rest) :
      Change s op { s with q := ⟨false, rest⟩, popped := s.popped ++ [value] }
  | nothing {op : Op α} (hop : op.isPush = false) (hop' : op ≠ .terminate) : Change s op s
  | clear : Change s .clear
      { s with q := { s.q with queue := [] }, removed := s.removed ++ s.q.queue }
  | terminate : Change s .terminate
      { s with q := ⟨true, []⟩, removed := s.removed ++ s.q.queue }

theorem Log.step_of_nothing {s s' : Log α} {op : Op α} {r : Result α}
    (hq : s.q.step op = some (s.q, r)) (hr : poppedBy r = []) (hop : op.isPush = false)
    (hremoved : removedBy s.q op = []) (h : s.step op = some s') : s' = s := by
  have hpushed : pushedBy op r = [] := by
    cases op with
    | push => cases hop
    | _ => rfl
  rw [step, hq, Option.map_some, Option.some.injEq, hpushed, hr, hremoved] at h
  rw [← h, List.append_nil, List.append_nil, List.append_nil]

theorem Log.step_change {s s' : Log α} {op : Op α} (h : s.step op = some s') :
    Change s op s' := by
  cases op with
  | push value maxSize =>
    by_cases hroom : maxSize = 0 ∨ s.q.queue.length < maxSize
    · simp only [step, SafeQueue.step, SafeQueue.push, if_pos hroom, Option.map_some,
        Option.some.injEq, pushedBy, poppedBy, removedBy, List.append_nil] at h
      exact h ▸ .push hroom
    · simp only [step, SafeQueue.step, SafeQueue.push, if_neg hroom, Option.map_some,
        Option.some.injEq, pushedBy, poppedBy, removedBy, List.append_nil] at h
      rw [not_or, Nat.not_lt] at hroom
      exact h ▸ .full hroom.1 hroom.2
  | tryPop =>
    cases hqueue : s.q.queue with
    | nil =>
      have hq : s.q.step .tryPop = some (s.q, .popped none) := by
        rw [SafeQueue.step, SafeQueue.tryPop, hqueue]
      exact step_of_nothing hq rfl rfl rfl h ▸ .nothing rfl (by simp)
    | cons value rest =>
      cases hopen : s.q.terminated with
      | true =>
        have hq : s.q.step .tryPop = some (s.q, .popped none) := by
          rw [SafeQueue.step, SafeQueue.tryPop, hqueue]
          simp [hopen]
        exact step_of_nothing hq rfl rfl rfl h ▸ .nothing rfl (by simp)
      | false =>
        simp only [step, SafeQueue.step, SafeQueue.tryPop, hqueue, hopen, Bool.false_eq_true,
          if_false, Option.map_some, Option.some.injEq, pushedBy, poppedBy, removedBy,
          List.append_nil] at h
        exact h ▸ .take rfl hopen hqueue
  | pop =>
    cases hopen : s.q.terminated with
    | true =>
      have hq : s.q.step .pop = some (s.q, .invalidArgument) := by
        rw [SafeQueue.step, SafeQueue.pop, hopen, if_pos rfl]
      exact step_of_nothing hq rfl rfl rfl h ▸ .nothing rfl (by simp)
    | false =>
      cases hqueue : s.q.queue with
      | nil => simp [step, SafeQueue.step, SafeQueue.pop, hopen, hqueue] at h
      | cons value rest =>
        simp only [step, SafeQueue.step, SafeQueue.pop, hqueue, hopen, Bool.false_eq_true,
          if_false, Option.map_some, Option.some.injEq, pushedBy, poppedBy, removedBy,
          List.append_nil] at h
        exact h ▸ .take rfl hopen hqueue
  | waitForSpace queueSize =>
    by_cases hspace : s.q.terminated ∨ s.q.queue.length < queueSize
    · have hq : s.q.step (.waitForSpace queueSize) =
          some (s.q, .space (s.q.queue.length < queueSize)) := by
        rw [SafeQueue.step, SafeQueue.waitForSpace, if_pos hspace]
      exact step_of_nothing hq rfl rfl rfl h ▸ .nothing rfl (by simp)
    · simp [step, SafeQueue.step, SafeQueue.waitForSpace, hspace] at h
  | clear =>
    simp only [step, SafeQueue.step, Option.map_some, Option.some.injEq, pushedBy, poppedBy,
      removedBy, List.append_nil] at h
    exact h ▸ .clear
  | terminate =>
    simp only [step, SafeQueue.step, Option.map_some, Option.some.injEq, pushedBy, poppedBy,
      removedBy, List.append_nil] at h
    exact h ▸ .terminate

/-! ### Every element is accounted for -/

/-- The ledger of a log: every element that was pushed was popped, was removed
or is queued. -/
structure Accounts (s : Log α) (l : Ledger α) : Prop where
  pushed : s.pushed = l.sent
  popped : s.popped = l.delivered
  removed : s.removed = l.removed
  queue : s.q.queue = l.waiting

theorem accounts_init : Accounts (α := α) Log.init .empty := ⟨rfl, rfl, rfl, rfl⟩

theorem Accounts.removeAll {s : Log α} {l : Ledger α} (h : Accounts s l) (b : Bool) :
    Accounts { s with q := ⟨b, []⟩, removed := s.removed ++ s.q.queue } l.removeAll := by
  obtain ⟨hdelivered, hremoved⟩ := l.withFate_removeAll
  refine ⟨?_, ?_, ?_, rfl⟩
  · rw [l.sent_removeAll]
    exact h.pushed
  · rw [hdelivered]
    exact h.popped
  · rw [hremoved, ← h.removed, ← h.queue]

/-- Every operation keeps the accounts. -/
theorem Accounts.change {s s' : Log α} {op : Op α} {l : Ledger α} (h : Accounts s l)
    (hchange : Change s op s') : ∃ l', Accounts s' l' := by
  cases hchange with
  | @push value maxSize hroom =>
    refine ⟨l.send value, ?_, h.popped, h.removed, ?_⟩
    · rw [l.sent_send, ← h.pushed]
    · change s.q.queue ++ [value] = l.waiting ++ [value]
      rw [h.queue]
  | full => exact ⟨l, h⟩
  | @take _ value rest _ hopen hqueue =>
    have hwaiting : l.waiting = value :: rest := by rw [← h.queue, hqueue]
    obtain ⟨hdelivered, hremoved⟩ := l.withFate_deliver value rest
    refine ⟨l.deliver value rest, ?_, ?_, ?_, rfl⟩
    · rw [Ledger.sent_deliver hwaiting]
      exact h.pushed
    · rw [hdelivered, ← h.popped]
    · rw [hremoved]
      exact h.removed
  | nothing => exact ⟨l, h⟩
  | clear => exact ⟨_, h.removeAll s.q.terminated⟩
  | terminate => exact ⟨_, h.removeAll true⟩

theorem exists_accounts {ops : List (Op α)} {s : Log α} (h : Log.run ops = some s) :
    ∃ l, Accounts s l :=
  Transition.invariant_of_runs (I := fun s => ∃ l, Accounts s l)
    (fun _ _ _ _ ⟨_, hl⟩ hstep => hl.change (Log.step_change hstep)) ⟨_, accounts_init⟩ h

/-- What is popped was pushed, in the same order. -/
theorem Accounts.popped_sublist {s : Log α} {l : Ledger α} (h : Accounts s l) :
    s.popped.Sublist s.pushed := by
  rw [h.popped, h.pushed]
  exact l.delivered_sublist

/-- Every element that was pushed was popped once, was removed or is queued. -/
theorem Accounts.pushed_perm {s : Log α} {l : Ledger α} (h : Accounts s l) :
    s.pushed.Perm (s.popped ++ s.removed ++ s.q.queue) := by
  rw [h.popped, h.pushed, h.removed, h.queue]
  exact l.sent_perm

/-- A push never makes the queue longer than its bound. -/
theorem length_le_of_push {s s' : Log α} {value : α} {maxSize : Nat} (hpos : 0 < maxSize)
    (h : s.step (.push value maxSize) = some s') :
    s'.q.queue.length ≤ maxSize ∨ s' = s := by
  cases Log.step_change h with
  | push hroom =>
    left
    rw [List.length_append, List.length_singleton]
    omega
  | full => exact .inr rfl
  | take hop => cases hop
  | nothing => exact .inr rfl

/-! ### Terminated queues -/

/-- A queue that is terminated and empty. -/
def Closed (s : Log α) : Prop := s.q.terminated = true ∧ s.q.queue = []

theorem closed_of_terminate {s s' : Log α} (h : s.step .terminate = some s') : Closed s' := by
  simp only [Log.step, step, Option.map_some, Option.some.injEq] at h
  rw [← h]
  exact ⟨rfl, rfl⟩

theorem Closed.change {s s' : Log α} {op : Op α} (h : Closed s) (hop : op.isPush = false)
    (hchange : Change s op s') : Closed s' := by
  cases hchange with
  | push => cases hop
  | full => cases hop
  | take _ hopen =>
    rw [h.1] at hopen
    cases hopen
  | nothing => exact h
  | clear => exact ⟨h.1, rfl⟩
  | terminate => exact ⟨rfl, rfl⟩

/-- A push to an empty queue is accepted, also when the queue is terminated. -/
theorem queue_of_push {s s' : Log α} (h : s.q.queue = []) {value : α} {maxSize : Nat}
    (hstep : s.step (.push value maxSize) = some s') :
    s'.q = ⟨s.q.terminated, [value]⟩ ∧ s'.pushed = s.pushed ++ [value] := by
  have hroom : maxSize = 0 ∨ s.q.queue.length < maxSize := by
    rw [h, List.length_nil]
    omega
  have hpush : s.q.push value maxSize = (⟨s.q.terminated, [value]⟩, .pushed true) := by
    rw [SafeQueue.push, if_pos hroom, h]
    rfl
  simp only [Log.step, step, hpush, Option.map_some, Option.some.injEq] at hstep
  rw [← hstep]
  exact ⟨rfl, rfl⟩

/-- The queue is empty in every state of a run after a `terminate`, and every
push is refused there. -/
def StaysClosed (ops : List (Op α)) : Prop :=
  ∀ before after s, ops = before ++ after → .terminate ∈ before → Log.run before = some s →
    s.q.queue = [] ∧ ∀ op rest s', after = op :: rest → op.isPush = true →
      s.step op = some s' → s'.pushed = s.pushed

def NoPushAfterTerminate (ops : List (Op α)) : Prop :=
  ∀ before op after, ops = before ++ op :: after → .terminate ∈ before → op.isPush = false

theorem closed_of_run {ops : List (Op α)} {s : Log α} (hrun : Log.run ops = some s)
    (hterminate : .terminate ∈ ops) (h : NoPushAfterTerminate ops) : Closed s := by
  obtain ⟨before, after, rfl⟩ := List.append_of_mem hterminate
  obtain ⟨m, m', -, hstep, hrest⟩ := Transition.runs_append_cons_eq_some_iff.mp hrun
  refine Transition.invariant_of_runs (fun op hop t t' ht hstep => ?_) (closed_of_terminate hstep)
    hrest
  obtain ⟨u, v, rfl⟩ := List.append_of_mem hop
  refine ht.change (h (before ++ .terminate :: u) op v ?_ (by simp)) (Log.step_change hstep)
  rw [List.append_assoc]
  rfl

theorem staysClosed_iff {ops : List (Op α)} {s : Log α} (hrun : Log.run ops = some s) :
    StaysClosed ops ↔ NoPushAfterTerminate ops := by
  constructor
  · intro h before op after hops hterminate
    rw [hops] at hrun
    obtain ⟨m, m', hm, hstep, -⟩ := Transition.runs_append_cons_eq_some_iff.mp hrun
    cases op with
    | push value maxSize =>
      have hempty := (h before _ m hops hterminate hm).1
      have hm' : Log.run (before ++ [.push value maxSize]) = some m' :=
        Transition.runs_append_cons_eq_some_iff.mpr ⟨m, m', hm, hstep, rfl⟩
      have hempty' := (h (before ++ [.push value maxSize]) after m' (by simp [hops])
        (List.mem_append_left _ hterminate) hm').1
      rw [(queue_of_push hempty hstep).1] at hempty'
      cases hempty'
    | _ => rfl
  · intro h before after t hops hterminate ht
    have hbefore : NoPushAfterTerminate before := by
      intro u op v heq
      refine h u op (v ++ after) ?_
      rw [hops, heq, List.append_assoc]
      rfl
    refine ⟨(closed_of_run ht hterminate hbefore).2, ?_⟩
    rintro op rest t' rfl hpush -
    rw [h before op rest hops hterminate] at hpush
    cases hpush

end SafeQueue

end Sihd.Util
