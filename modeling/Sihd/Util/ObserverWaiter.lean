import Mathlib.Data.UInt
import Sihd.Lib.Transition

/-!
# The observer waiter

It counts the notifications under the mutex of its waitable, and one thread waits until the count
has reached a total. A wait evaluates its condition and goes to sleep in one critical section. The
call returns with its last access to the counts, where it remembers the count.
-/

namespace Sihd.Util

/-- `observing` says that `_obs_ptr` is not null. -/
structure ObserverWaiter where
  currentCount : UInt32
  lastWaitedCount : UInt32
  observing : Bool

namespace ObserverWaiter

/-- A waiter that observes. -/
def create : ObserverWaiter := ⟨0, 0, true⟩

def handle (o : ObserverWaiter) : ObserverWaiter := { o with currentCount := o.currentCount + 1 }

/-- The condition of `wait_nb` and of `wait_for_nb`. -/
def reached (o : ObserverWaiter) (total : UInt32) : Bool :=
  !o.observing || decide (total ≤ o.currentCount)

/-- How `wait_nb` and `wait_for_nb` end. -/
def remember (o : ObserverWaiter) : ObserverWaiter := { o with lastWaitedCount := o.currentCount }

inductive Call where
  | wait (notifications : UInt32)
  | waitFor (notifications : UInt32)
  | prevWait (notifications : UInt32)
  | prevWaitFor (notifications : UInt32)
  deriving DecidableEq

def Call.notifications : Call → UInt32
  | .wait n | .waitFor n | .prevWait n | .prevWaitFor n => n

def Call.timed : Call → Bool
  | .waitFor _ | .prevWaitFor _ => true
  | .wait _ | .prevWait _ => false

/-- The call counts from the return of the previous one. -/
def Call.prev : Call → Bool
  | .prevWait _ | .prevWaitFor _ => true
  | .wait _ | .waitFor _ => false

/-- The total that the call waits for. -/
def total (o : ObserverWaiter) : Call → UInt32
  | .wait n => o.currentCount + n
  | .waitFor n => o.currentCount + n
  | .prevWait n => o.currentCount + n
  | .prevWaitFor n => o.lastWaitedCount + n

/-- Where the waiting thread is. -/
inductive Pc where
  | idle
  | checking (call : Call) (total : UInt32)
  | asleep (call : Call) (total : UInt32)
  | timedOut (call : Call) (total : UInt32)
  | returning
  deriving DecidableEq

/-- What a call has returned, with the notifications that it counts at its last look at them. -/
structure Return where
  call : Call
  ret : Bool
  since : Nat

/-- `delivered`, `called`, `returned` and `returns` are the record: how many notifications were
delivered, at the call that waits and at the return of the previous one, and what was returned. -/
structure World where
  waiter : ObserverWaiter
  pc : Pc
  delivered : Nat
  called : Nat
  returned : Nat
  returns : List Return

inductive Action where
  | handle
  | call (call : Call)
  | next
  /-- The thread is woken without a notification. -/
  | wake
  | timeout

/-- A notification wakes the thread. -/
def Pc.notified : Pc → Pc
  | .asleep call total => .checking call total
  | pc => pc

namespace World

def init : World := ⟨.create, .idle, 0, 0, 0, []⟩

/-- The notifications that a call counts: those since it was made, or since the previous one has
returned. -/
def since (w : World) (call : Call) : Nat := w.delivered - if call.prev then w.returned else w.called

def next (w : World) : Option World :=
  match w.pc with
  | .checking call total =>
      if w.waiter.reached total then
        some { w with pc := .returning, returns := ⟨call, true, w.since call⟩ :: w.returns }
      else some { w with pc := .asleep call total }
  | .timedOut call total =>
      -- The condition is evaluated once more.
      some { w with
        pc := .returning
        returns := ⟨call, w.waiter.reached total, w.since call⟩ :: w.returns }
  | .returning => some { w with waiter := w.waiter.remember, pc := .idle, returned := w.delivered }
  | .idle | .asleep _ _ => none

def step (w : World) : Action → Option World
  | .handle =>
      some { w with waiter := w.waiter.handle, pc := w.pc.notified, delivered := w.delivered + 1 }
  | .call call =>
      match w.pc with
      | .idle => some { w with pc := .checking call (w.waiter.total call), called := w.delivered }
      | _ => none
  | .next => w.next
  | .wake =>
      match w.pc with
      | .asleep call total => some { w with pc := .checking call total }
      | _ => none
  | .timeout =>
      match w.pc with
      | .asleep call total => if call.timed then some { w with pc := .timedOut call total } else none
      | _ => none

end World

/-- The call that waits, with its total. -/
def Pc.waits : Pc → Option (Call × UInt32)
  | .checking call total | .asleep call total | .timedOut call total => some (call, total)
  | .idle | .returning => none

/-- A call that waits is satisfied exactly when the notifications that it counts are enough. The
thread does not sleep then, and what a call has returned says whether they were. -/
structure World.LosesNothing (w : World) : Prop where
  satisfied : ∀ call total, w.pc.waits = some (call, total) →
    (w.waiter.reached total = true ↔ call.notifications.toNat ≤ w.since call)
  asleep : ∀ call total, w.pc = .asleep call total → w.since call < call.notifications.toNat
  returned : ∀ r ∈ w.returns, r.ret = true ↔ r.call.notifications.toNat ≤ r.since

/-- The call is one that counts right: the total is not beyond the counter, and `prev_wait`, which
takes the current count for the one that was remembered, finds them equal or waits for nothing. Past
the counter, its total is reached at once, which is right when enough has come. -/
def Fits (o : ObserverWaiter) : Call → Prop
  | .wait n | .waitFor n => o.currentCount.toNat + n.toNat < 2 ^ 32
  | .prevWait n =>
      (o.currentCount.toNat + n.toNat < 2 ^ 32 ∧ (n = 0 ∨ o.lastWaitedCount = o.currentCount)) ∨
        (2 ^ 32 ≤ o.currentCount.toNat + n.toNat ∧
          o.lastWaitedCount.toNat + n.toNat ≤ o.currentCount.toNat)
  | .prevWaitFor n => o.lastWaitedCount.toNat + n.toNat < 2 ^ 32

/-! ### Totals -/

/-- From `delivered` notifications on, the total is reached exactly when `n` have come since
`start`. -/
def Counts (total n : UInt32) (start delivered : Nat) : Prop :=
  ∀ d, delivered ≤ d → d < 2 ^ 32 → (total.toNat ≤ d ↔ n.toNat ≤ d - start)

/-- A total that is taken from where the call counts. -/
theorem counts_add_iff {base n : UInt32} {delivered : Nat} (hbase : base.toNat ≤ delivered)
    (hdelivered : delivered < 2 ^ 32) :
    Counts (base + n) n base.toNat delivered ↔ base.toNat + n.toNat < 2 ^ 32 := by
  constructor
  · intro h
    have hnow := h delivered (Nat.le_refl _) hdelivered
    rw [UInt32.toNat_add] at hnow
    have hn := n.toNat_lt
    omega
  · intro hfits d hd _
    rw [UInt32.toNat_add, Nat.mod_eq_of_lt hfits]
    omega

/-- A total that is taken from the current count, for a call that counts from an earlier one. -/
theorem counts_current_iff {current last n : UInt32} (hlast : last.toNat ≤ current.toNat) :
    Counts (current + n) n last.toNat current.toNat ↔
      (current.toNat + n.toNat < 2 ^ 32 ∧ (n = 0 ∨ last = current)) ∨
        (2 ^ 32 ≤ current.toNat + n.toNat ∧ last.toNat + n.toNat ≤ current.toNat) := by
  have hc := current.toNat_lt
  have hn := n.toNat_lt
  have hzero : n = 0 ↔ n.toNat = 0 := by rw [← UInt32.toNat_inj]; rfl
  have heq : last = current ↔ last.toNat = current.toNat := UInt32.toNat_inj.symm
  rw [hzero, heq]
  constructor
  · intro h
    rcases Nat.lt_or_ge (current.toNat + n.toNat) (2 ^ 32) with hfits | hwraps
    · -- One notification less than the total is enough, unless both count from the same place.
      have hless := h (current.toNat + n.toNat - 1)
      have hnow := h current.toNat (Nat.le_refl _) hc
      rw [UInt32.toNat_add, Nat.mod_eq_of_lt hfits] at hless hnow
      omega
    · have hnow := h current.toNat (Nat.le_refl _) hc
      rw [UInt32.toNat_add] at hnow
      omega
  · intro h d hd hlt
    rw [UInt32.toNat_add]
    omega

/-- The condition on a call is exactly that its total counts the notifications right. -/
theorem counts_total_iff {o : ObserverWaiter} (hlast : o.lastWaitedCount.toNat ≤ o.currentCount.toNat)
    (call : Call) :
    Counts (o.total call) call.notifications
      (if call.prev then o.lastWaitedCount.toNat else o.currentCount.toNat) o.currentCount.toNat ↔
        Fits o call := by
  cases call with
  | wait n => exact counts_add_iff (Nat.le_refl _) o.currentCount.toNat_lt
  | waitFor n => exact counts_add_iff (Nat.le_refl _) o.currentCount.toNat_lt
  | prevWait n => exact counts_current_iff hlast
  | prevWaitFor n => exact counts_add_iff hlast o.currentCount.toNat_lt

namespace World

variable {w w' : World}

/-- Fewer than `2 ^ 32` notifications are delivered. -/
def bounded (w : World) : Action → Prop
  | .handle => w.delivered + 1 < 2 ^ 32
  | _ => True

/-- The condition on a step. -/
def counting (w : World) : Action → Prop
  | .call call => Fits w.waiter call
  | _ => True

structure Sound (w : World) : Prop where
  observing : w.waiter.observing = true
  current : w.waiter.currentCount.toNat = w.delivered
  last : w.waiter.lastWaitedCount.toNat = w.returned
  returned_le : w.returned ≤ w.delivered
  counts : ∀ call total, w.pc.waits = some (call, total) →
    Counts total call.notifications (if call.prev then w.returned else w.called) w.delivered
  asleep : ∀ call total, w.pc = .asleep call total → w.since call < call.notifications.toNat
  returns : ∀ r ∈ w.returns, r.ret = true ↔ r.call.notifications.toNat ≤ r.since

theorem sound_init : Sound init where
  observing := rfl
  current := rfl
  last := rfl
  returned_le := Nat.le_refl 0
  counts := nofun
  asleep := nofun
  returns := nofun

theorem Sound.reached_iff (h : Sound w) {call : Call} {total : UInt32}
    (hwaits : w.pc.waits = some (call, total)) :
    w.waiter.reached total = true ↔ call.notifications.toNat ≤ w.since call := by
  have hlt : w.delivered < 2 ^ 32 := h.current ▸ w.waiter.currentCount.toNat_lt
  rw [reached, h.observing, Bool.not_true, Bool.false_or, decide_eq_true_iff, UInt32.le_iff_toNat_le,
    h.current]
  exact h.counts call total hwaits w.delivered (Nat.le_refl _) hlt

theorem waits_notified (pc : Pc) : pc.notified.waits = pc.waits := by
  cases pc <;> rfl

theorem notified_ne_asleep (pc : Pc) (call : Call) (total : UInt32) :
    pc.notified ≠ .asleep call total := by
  cases pc <;> nofun

theorem Sound.handle (h : Sound w) (hbounded : w.delivered + 1 < 2 ^ 32) :
    Sound { w with
      waiter := w.waiter.handle, pc := w.pc.notified, delivered := w.delivered + 1 } where
  observing := h.observing
  current := by
    change (w.waiter.currentCount + 1).toNat = w.delivered + 1
    rw [UInt32.toNat_add, h.current]
    exact Nat.mod_eq_of_lt hbounded
  last := h.last
  returned_le := h.returned_le.trans (Nat.le_succ _)
  counts := fun call total hwaits d hd => by
    rw [waits_notified] at hwaits
    exact h.counts call total hwaits d ((Nat.le_succ _).trans hd)
  asleep := fun call total hpc => absurd hpc (notified_ne_asleep w.pc call total)
  returns := h.returns

theorem Sound.call (h : Sound w) {call : Call} (hfits : Fits w.waiter call) :
    Sound { w with pc := .checking call (w.waiter.total call), called := w.delivered } where
  observing := h.observing
  current := h.current
  last := h.last
  returned_le := h.returned_le
  counts := fun call' total hwaits => by
    obtain ⟨rfl, rfl⟩ := Prod.mk.inj (Option.some.inj hwaits)
    have hlast : w.waiter.lastWaitedCount.toNat ≤ w.waiter.currentCount.toNat := by
      rw [h.last, h.current]
      exact h.returned_le
    have hcounts := (counts_total_iff hlast call).mpr hfits
    rwa [h.last, h.current] at hcounts
  asleep := nofun
  returns := h.returns

/-- The thread goes to another place of the same call. -/
theorem Sound.goto (h : Sound w) {pc : Pc} (hwaits : pc.waits = w.pc.waits)
    (hasleep : ∀ call total, pc = .asleep call total → w.waiter.reached total = false) :
    Sound { w with pc := pc } where
  observing := h.observing
  current := h.current
  last := h.last
  returned_le := h.returned_le
  counts := fun call total hpc => h.counts call total (hwaits ▸ hpc)
  asleep := fun call total hpc => by
    change w.since call < call.notifications.toNat
    have hsame : w.pc.waits = some (call, total) := hwaits ▸ congrArg Pc.waits hpc
    rw [← Nat.not_le, ← h.reached_iff hsame, hasleep call total hpc]
    exact Bool.false_ne_true
  returns := h.returns

/-- The call returns what it has found. -/
theorem Sound.return (h : Sound w) {call : Call} {total : UInt32}
    (hwaits : w.pc.waits = some (call, total)) :
    Sound { w with
      pc := .returning
      returns := ⟨call, w.waiter.reached total, w.since call⟩ :: w.returns } where
  observing := h.observing
  current := h.current
  last := h.last
  returned_le := h.returned_le
  counts := nofun
  asleep := nofun
  returns := fun r hr => by
    rcases List.mem_cons.mp hr with rfl | hr
    · exact h.reached_iff hwaits
    · exact h.returns r hr

theorem Sound.remember (h : Sound w) :
    Sound { w with waiter := w.waiter.remember, pc := .idle, returned := w.delivered } where
  observing := h.observing
  current := h.current
  last := h.current
  returned_le := Nat.le_refl _
  counts := nofun
  asleep := nofun
  returns := h.returns

theorem Sound.next (h : Sound w) (hnext : w.next = some w') : Sound w' := by
  rw [World.next] at hnext
  split at hnext
  · next call total hpc =>
    have hwaits : w.pc.waits = some (call, total) := by rw [hpc]; rfl
    split at hnext
    · next hreached =>
      obtain rfl := Option.some.inj hnext
      have hreturn := h.return hwaits
      rwa [hreached] at hreturn
    · next hreached =>
      obtain rfl := Option.some.inj hnext
      refine h.goto (by rw [hpc]; rfl) fun call' total' hasleep => ?_
      obtain ⟨rfl, rfl⟩ := Pc.asleep.inj hasleep
      exact Bool.not_eq_true _ ▸ hreached
  · next call total hpc =>
    obtain rfl := Option.some.inj hnext
    exact h.return (by rw [hpc]; rfl)
  · obtain rfl := Option.some.inj hnext
    exact h.remember
  · cases hnext
  · cases hnext

theorem Sound.step (h : Sound w) {a : Action} (hbounded : w.bounded a) (hcounting : w.counting a)
    (hstep : w.step a = some w') : Sound w' := by
  cases a with
  | handle =>
    obtain rfl := Option.some.inj hstep
    exact h.handle hbounded
  | call call =>
    rw [World.step] at hstep
    split at hstep
    · obtain rfl := Option.some.inj hstep
      exact h.call hcounting
    · cases hstep
  | next => exact h.next hstep
  | wake =>
    rw [World.step] at hstep
    split at hstep
    · next call total hpc =>
      obtain rfl := Option.some.inj hstep
      exact h.goto (by rw [hpc]; rfl) nofun
    · cases hstep
  | timeout =>
    rw [World.step] at hstep
    split at hstep
    · next call total hpc =>
      obtain ⟨-, hstep⟩ := Option.ite_none_right_eq_some.mp hstep
      obtain rfl := Option.some.inj hstep
      exact h.goto (by rw [hpc]; rfl) nofun
    · cases hstep

theorem Sound.losesNothing (h : Sound w) : LosesNothing w where
  satisfied := fun _ _ hwaits => h.reached_iff hwaits
  asleep := h.asleep
  returned := h.returns

/-- The worlds of the runs with fewer than `2 ^ 32` notifications. -/
def Reachable (w : World) : Prop := Transition.Reaches step bounded (· = init) w

/-- The worlds of those runs whose calls all count right. -/
def ReachableCounting (w : World) : Prop :=
  Transition.Reaches step (fun w a => w.bounded a ∧ w.counting a) (· = init) w

theorem sound_of_reachable (h : ReachableCounting w) : Sound w :=
  Transition.Reaches.invariant (I := Sound)
    (fun _ hw => by
      obtain rfl := hw
      exact sound_init)
    (fun _ _ _ hs hallowed hstep => hs.step hallowed.1 hallowed.2 hstep) h

/-- In a run whose calls all count right, no notification is lost. -/
theorem losesNothing_of_reachable (h : ReachableCounting w) : w.LosesNothing :=
  (sound_of_reachable h).losesNothing

/-! ### Calls that do not count right -/

instance (w : World) : DecidablePred w.bounded
  | .handle => inferInstanceAs (Decidable (w.delivered + 1 < 2 ^ 32))
  | .call _ | .next | .wake | .timeout => .isTrue trivial

instance (o : ObserverWaiter) : DecidablePred (Fits o)
  | .wait n | .waitFor n => inferInstanceAs (Decidable (o.currentCount.toNat + n.toNat < 2 ^ 32))
  | .prevWait _ => inferInstanceAs (Decidable ((_ ∧ _) ∨ (_ ∧ _)))
  | .prevWaitFor n => inferInstanceAs (Decidable (o.lastWaitedCount.toNat + n.toNat < 2 ^ 32))

instance (w : World) : DecidablePred w.counting
  | .call call => inferInstanceAs (Decidable (Fits w.waiter call))
  | .handle | .next | .wake | .timeout => .isTrue trivial

theorem exists_reachable (actions : List Action) {P : World → Prop} [DecidablePred P]
    (h : (Transition.runs (Transition.guarded step fun w a => decide (w.bounded a)) init
      actions).any (fun w => decide (P w)) = true) : ∃ w, Reachable w ∧ P w := by
  obtain ⟨w, hw, hp⟩ := @Transition.Reaches.exists_of_runs_guarded _ _ step (· = init)
    _ _ _ P _ rfl h
  exact ⟨w, hw.mono fun _ _ => of_decide_eq_true, hp⟩

theorem exists_reachableCounting (actions : List Action) {P : World → Prop} [DecidablePred P]
    (h : (Transition.runs (Transition.guarded step fun w a => decide (w.bounded a ∧ w.counting a))
      init actions).any (fun w => decide (P w)) = true) : ∃ w, ReachableCounting w ∧ P w := by
  obtain ⟨w, hw, hp⟩ := @Transition.Reaches.exists_of_runs_guarded _ _ step (· = init)
    _ _ _ P _ rfl h
  exact ⟨w, hw.mono fun _ _ => of_decide_eq_true, hp⟩

/-- A notification that comes before its wait, one that wakes the thread, and a wait for two that
times out after one. -/
def waits : List Action :=
  [.handle, .call (.prevWaitFor 1), .next, .next, .call (.wait 1), .next, .wake, .next, .handle,
    .next, .next, .call (.waitFor 2), .next, .handle, .next, .timeout, .next]

theorem losesNothing_waits : ∃ w : World, w.LosesNothing ∧
    w.returns.map Return.ret = [false, true, true] := by
  obtain ⟨w, hw, hreturns⟩ := exists_reachableCounting waits
    (P := fun w => w.returns.map Return.ret = [false, true, true]) (by decide +kernel)
  exact ⟨w, losesNothing_of_reachable hw, hreturns⟩

/-- The notification comes before `prev_wait`, which does not return. -/
theorem not_losesNothing_prevWait : ¬ ∀ w : World, Reachable w → w.LosesNothing := by
  intro h
  obtain ⟨w, hw, hpc, hsince⟩ := exists_reachable [.handle, .call (.prevWait 1), .next]
    (P := fun w => w.pc = .asleep (.prevWait 1) 2 ∧ w.since (.prevWait 1) = 1)
    (by decide +kernel)
  have hfew := (h w hw).asleep (.prevWait 1) 2 hpc
  rw [hsince] at hfew
  exact Nat.lt_irrefl 1 hfew

end World

end ObserverWaiter

end Sihd.Util
