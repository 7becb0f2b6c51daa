import Sihd.Util.Worker

/-!
# The threads of a worker

Starts and stops have duties towards the thread of the worker: a start that has won prepares a
thread and assigns it, and a stop joins it. As long as a start begins only when nobody has a duty
and the thread was joined, there is one thread at a time, and it is never overwritten.
-/

namespace Sihd.Util.Worker

/-- What a call has to do with the thread of the worker. -/
inductive Duty where
  | none
  | preparing
  | assigning (thread : Nat)
  | joining (thread : Nat)
  deriving DecidableEq

def Duty.isStarting : Duty → Bool
  | .preparing => true
  | .assigning _ => true
  | _ => false

def Pc.duty : Pc → Duty
  | .exchanged _ => .preparing
  | .constructing _ => .preparing
  | .assigning _ thread => .assigning thread
  | .joining thread => .joining thread
  | _ => .none

def ThreadPc.isAlive : ThreadPc → Bool
  | .unborn => false
  | .finished => false
  | _ => true

/-- The threads that were started follow each other, and the last one is held until it is
joined. -/
structure OneThread {ι : Type} (duty : ι → Duty) (thread : Nat → ThreadPc) (threads : Nat)
    (workerThread : Option Nat) (overwritten : Bool) : Prop where
  unborn : ∀ j, threads ≤ j → thread j = .unborn
  born : ∀ j, j < threads → thread j ≠ .unborn
  earlier : ∀ j, j + 1 < threads → thread j = .finished
  starting : ∀ u v, (duty u).isStarting → (duty v).isStarting → u = v
  free : ∀ u, (duty u).isStarting → workerThread = none ∧ ∀ v k, duty v ≠ .joining k
  empty : ∀ u, duty u = .preparing → ∀ j, j < threads → thread j = .finished
  assigning : ∀ u k, duty u = .assigning k → k + 1 = threads
  held : ∀ k, workerThread = some k → k + 1 = threads
  joining : ∀ u k, duty u = .joining k →
    k + 1 = threads ∧ (workerThread = none → thread k = .finished)
  joined : workerThread = none → (∀ u, (duty u).isStarting = false) →
    ∀ j, j < threads → thread j = .finished
  kept : overwritten = false

namespace OneThread

variable {ι : Type} {duty : ι → Duty} {thread : Nat → ThreadPc} {threads : Nat}
  {workerThread : Option Nat} {overwritten : Bool} {t : ι} {k : Nat}

theorem init : OneThread (fun _ : ι => Duty.none) (fun _ => .unborn) 0 none false where
  unborn _ _ := rfl
  born _ hj := absurd hj (Nat.not_lt_zero _)
  earlier _ hj := absurd hj (Nat.not_lt_zero _)
  starting _ _ hu := by cases hu
  free _ hu := by cases hu
  empty _ hu := by cases hu
  assigning _ _ hu := by cases hu
  held _ hk := by cases hk
  joining _ _ hu := by cases hu
  joined _ _ _ hj := absurd hj (Nat.not_lt_zero _)
  kept := rfl

/-- Only the last thread can be alive. -/
theorem last_of_alive (h : OneThread duty thread threads workerThread overwritten)
    (hk : (thread k).isAlive = true) : k + 1 = threads := by
  rcases Nat.lt_trichotomy (k + 1) threads with hlt | heq | hlt
  · rw [h.earlier k hlt] at hk
    cases hk
  · exact heq
  · rw [h.unborn k (by omega)] at hk
    cases hk

theorem unique (h : OneThread duty thread threads workerThread overwritten) {j : Nat}
    (hj : (thread j).isAlive = true) (hk : (thread k).isAlive = true) : j = k := by
  have hjlast := h.last_of_alive hj
  have hklast := h.last_of_alive hk
  omega

variable [DecidableEq ι]

theorem prepare (h : OneThread duty thread threads workerThread overwritten) (t : ι)
    (hnone : workerThread = none) (hduty : ∀ u, duty u = .none) :
    OneThread (Function.update duty t .preparing) thread threads workerThread overwritten := by
  have hself : ∀ u, (Function.update duty t .preparing u).isStarting = true → u = t := fun u hu => by
    by_contra hne
    rw [Function.update_of_ne hne, hduty u] at hu
    cases hu
  have hfinished : ∀ j, j < threads → thread j = .finished :=
    h.joined hnone fun u => by rw [hduty u]; rfl
  have hnot : ∀ u d, Function.update duty t .preparing u = d → d = .preparing ∨ d = .none :=
    fun u d hu => by
      by_cases hne : u = t
      · rw [hne, Function.update_self] at hu
        exact .inl hu.symm
      · rw [Function.update_of_ne hne, hduty u] at hu
        exact .inr hu.symm
  exact { h with
    starting := fun u v hu hv => (hself u hu).trans (hself v hv).symm
    free := fun _ _ => ⟨hnone, fun v k hv => by rcases hnot v _ hv with heq | heq <;> cases heq⟩
    empty := fun _ _ => hfinished
    assigning := fun u k hu => by rcases hnot u _ hu with heq | heq <;> cases heq
    joining := fun u k hu => by rcases hnot u _ hu with heq | heq <;> cases heq
    joined := fun _ _ => hfinished }

/-- A duty that is over, whatever the thread that is held then. -/
theorem update_none_eq {u : ι} {d : Duty} (hu : Function.update duty t .none u = d)
    (hd : d ≠ .none) : u ≠ t ∧ duty u = d := by
  by_cases hne : u = t
  · rw [hne, Function.update_self] at hu
    exact absurd hu.symm hd
  · rw [Function.update_of_ne hne] at hu
    exact ⟨hne, hu⟩

theorem starting_of_update_none {u : ι}
    (hu : (Function.update duty t .none u).isStarting = true) :
    u ≠ t ∧ (duty u).isStarting = true := by
  by_cases hne : u = t
  · rw [hne, Function.update_self] at hu
    cases hu
  · rw [Function.update_of_ne hne] at hu
    exact ⟨hne, hu⟩

/-- Nobody starts when the one that starts is over. -/
theorem not_isStarting_of_update_none
    (h : OneThread duty thread threads workerThread overwritten)
    (ht : (duty t).isStarting = true) (u : ι) :
    (Function.update duty t .none u).isStarting ≠ true := fun hu => by
  obtain ⟨hne, hduty⟩ := starting_of_update_none hu
  exact hne (h.starting u t hduty ht)

theorem giveUp (h : OneThread duty thread threads workerThread overwritten)
    (ht : duty t = .preparing) :
    OneThread (Function.update duty t .none) thread threads workerThread overwritten := by
  have hstarting : (duty t).isStarting = true := by rw [ht]; rfl
  have hnobody := h.not_isStarting_of_update_none hstarting
  exact { h with
    starting := fun u _ hu => absurd hu (hnobody u)
    free := fun u hu => absurd hu (hnobody u)
    empty := fun u hu => absurd (by rw [hu]; rfl) (hnobody u)
    assigning := fun u k hu => absurd (by rw [hu]; rfl) (hnobody u)
    joining := fun u k hu => h.joining u k (update_none_eq hu nofun).2
    joined := fun _ _ => h.empty t ht }

theorem construct (h : OneThread duty thread threads workerThread overwritten)
    (ht : duty t = .preparing) :
    OneThread (Function.update duty t (.assigning threads))
      (Function.update thread threads .created) (threads + 1) workerThread overwritten := by
  have hstarting : (duty t).isStarting = true := by rw [ht]; rfl
  have hfinished := h.empty t ht
  obtain ⟨hnone, hjoining⟩ := h.free t hstarting
  have hself : ∀ u, (Function.update duty t (.assigning threads) u).isStarting = true → u = t :=
    fun u hu => by
      by_contra hne
      rw [Function.update_of_ne hne] at hu
      exact hne (h.starting u t hu hstarting)
  have hnot : ∀ u d, Function.update duty t (.assigning threads) u = d →
      d = .assigning threads ∨ u ≠ t ∧ duty u = d := fun u d hu => by
    by_cases hne : u = t
    · rw [hne, Function.update_self] at hu
      exact .inl hu.symm
    · rw [Function.update_of_ne hne] at hu
      exact .inr ⟨hne, hu⟩
  have hnobody : ∀ v k, Function.update duty t (.assigning threads) v ≠ .joining k :=
    fun v k hv => by
      rcases hnot v _ hv with heq | ⟨-, hduty⟩
      · cases heq
      · exact hjoining v k hduty
  exact {
    unborn := fun j hj => by
      rw [Function.update_of_ne (by omega)]
      exact h.unborn j (by omega)
    born := fun j hj => by
      by_cases hne : j = threads
      · rw [hne, Function.update_self]
        nofun
      · rw [Function.update_of_ne hne]
        exact h.born j (by omega)
    earlier := fun j hj => by
      rw [Function.update_of_ne (by omega)]
      exact hfinished j (by omega)
    starting := fun u v hu hv => (hself u hu).trans (hself v hv).symm
    free := fun _ _ => ⟨hnone, hnobody⟩
    empty := fun u hu => by
      rcases hnot u _ hu with heq | ⟨hne, hduty⟩
      · cases heq
      · exact absurd (h.starting u t (by rw [hduty]; rfl) hstarting) hne
    assigning := fun u k hu => by
      rcases hnot u _ hu with heq | ⟨hne, hduty⟩
      · rw [(Duty.assigning.inj heq)]
      · exact absurd (h.starting u t (by rw [hduty]; rfl) hstarting) hne
    held := fun k hk => by
      rw [hnone] at hk
      cases hk
    joining := fun u k hu => absurd hu (hnobody u k)
    joined := fun _ hall => by
      have htrue := hall t
      rw [Function.update_self] at htrue
      cases htrue
    kept := h.kept }

theorem assign (h : OneThread duty thread threads workerThread overwritten)
    (ht : duty t = .assigning k) :
    OneThread (Function.update duty t .none) thread threads (some k)
      (overwritten || workerThread.isSome) := by
  have hstarting : (duty t).isStarting = true := by rw [ht]; rfl
  obtain ⟨hnone, hjoining⟩ := h.free t hstarting
  have hnobody := h.not_isStarting_of_update_none hstarting
  exact { h with
    starting := fun u _ hu => absurd hu (hnobody u)
    free := fun u hu => absurd hu (hnobody u)
    empty := fun u hu => absurd (by rw [hu]; rfl) (hnobody u)
    assigning := fun u k hu => absurd (by rw [hu]; rfl) (hnobody u)
    held := fun j hj => by
      rw [← Option.some.inj hj]
      exact h.assigning t k ht
    joining := fun u j hu => absurd (update_none_eq hu nofun).2 (hjoining u j)
    joined := fun hfalse => by cases hfalse
    kept := by
      rw [h.kept, hnone]
      rfl }

theorem check (h : OneThread duty thread threads workerThread overwritten)
    (ht : duty t = .none) (hk : workerThread = some k) :
    OneThread (Function.update duty t (.joining k)) thread threads workerThread overwritten := by
  have heq : ∀ u, (Function.update duty t (.joining k) u).isStarting = (duty u).isStarting :=
    fun u => by
      by_cases hne : u = t
      · rw [hne, Function.update_self, ht]
        rfl
      · rw [Function.update_of_ne hne]
  have hnobody : ∀ u, (duty u).isStarting ≠ true := fun u hu => by
    have hnone := (h.free u hu).1
    rw [hk] at hnone
    cases hnone
  exact { h with
    starting := fun u _ hu => absurd (heq u ▸ hu) (hnobody u)
    free := fun u hu => absurd (heq u ▸ hu) (hnobody u)
    empty := fun u hu => absurd ((heq u).symm.trans (by rw [hu]; rfl)) (hnobody u)
    assigning := fun u j hu => absurd ((heq u).symm.trans (by rw [hu]; rfl)) (hnobody u)
    joining := fun u j hu => by
      by_cases hne : u = t
      · rw [hne, Function.update_self] at hu
        rw [← Duty.joining.inj hu]
        exact ⟨h.held k hk, fun hnone => by rw [hk] at hnone; cases hnone⟩
      · rw [Function.update_of_ne hne] at hu
        exact h.joining u j hu
    joined := fun hnone => by
      rw [hk] at hnone
      cases hnone }

theorem join (h : OneThread duty thread threads workerThread overwritten)
    (ht : duty t = .joining k) (hk : thread k = .finished) :
    OneThread (Function.update duty t .none) thread threads none overwritten := by
  have hlast := (h.joining t k ht).1
  have hfinished : ∀ j, j < threads → thread j = .finished := fun j hj => by
    rcases Nat.lt_or_ge (j + 1) threads with hlt | hge
    · exact h.earlier j hlt
    · have heq : j = k := by omega
      rw [heq, hk]
  exact { h with
    starting := fun u v hu hv =>
      h.starting u v (starting_of_update_none hu).2 (starting_of_update_none hv).2
    free := fun u hu => absurd ht ((h.free u (starting_of_update_none hu).2).2 t k)
    empty := fun _ _ => hfinished
    assigning := fun u j hu => h.assigning u j (update_none_eq hu nofun).2
    held := fun j hj => by cases hj
    joining := fun u j hu => by
      have hj := (h.joining u j (update_none_eq hu nofun).2).1
      exact ⟨hj, fun _ => hfinished j (by omega)⟩
    joined := fun _ _ => hfinished }

omit [DecidableEq ι] in
/-- A thread that is alive goes on. -/
theorem moveThread (h : OneThread duty thread threads workerThread overwritten)
    (hk : (thread k).isAlive = true) {pc : ThreadPc} (hpc : pc ≠ .unborn) :
    OneThread duty (Function.update thread k pc) threads workerThread overwritten := by
  have hlast := h.last_of_alive hk
  have hfinished : ∀ j, thread j = .finished → Function.update thread k pc j = .finished :=
    fun j hj => by
      have hne : j ≠ k := fun heq => by
        rw [heq] at hj
        rw [hj] at hk
        cases hk
      rw [Function.update_of_ne hne, hj]
  exact { h with
    unborn := fun j hj => by
      rw [Function.update_of_ne (by omega)]
      exact h.unborn j hj
    born := fun j hj => by
      by_cases hne : j = k
      · rw [hne, Function.update_self]
        exact hpc
      · rw [Function.update_of_ne hne]
        exact h.born j hj
    earlier := fun j hj => hfinished j (h.earlier j hj)
    empty := fun u hu j hj => hfinished j (h.empty u hu j hj)
    joining := fun u j hu => ⟨(h.joining u j hu).1, fun hnone => hfinished j
      ((h.joining u j hu).2 hnone)⟩
    joined := fun hnone hall j hj => hfinished j (h.joined hnone hall j hj) }

end OneThread

end Sihd.Util.Worker
