import Mathlib.Algebra.GroupWithZero.Nat
import Sihd.Lib.Rendezvous
import Sihd.Lib.Transition

/-!
# The synchronizer

`sync` is a sequence of atomic steps on a count of arrivals and a number of
rounds, each an atomic of its own. The last thread of a round takes the mutex of
the waitable to reset the count and then raise the number, and a thread that
waits reads the number under this mutex. A wait can look at the number at any
time, as wakeups may be spurious, so notifications have no effect of their own.

The world of a synchronizer has the threads that use it and a record of their
calls. The rounds of the record are counted without a bound.
-/

namespace Sihd.Util

structure Synchronizer where
  syncCount : Int32
  wantedCount : Int32
  totalSyncRound : Int32
  deriving DecidableEq

namespace Synchronizer

def initSync (s : Synchronizer) (total : Int32) : Except String (Synchronizer × Bool) :=
  if total ≤ 0 then
    .error "Cannot initialize Synchroniser with a negative or zero value"
  else if s.wantedCount = 0 then .ok ({ s with wantedCount := total }, true)
  else .ok (s, false)

/-- The constructor. -/
def create (total : Int32) : Except String Synchronizer :=
  (initSync ⟨0, 0, 0⟩ total).map Prod.fst

/-- Where a thread is in `sync`, with its local variables. -/
inductive Pc where
  | idle
  /-- It has read the number of the round. -/
  | loaded (currentSyncRound : Int32) (timeout : Int)
  /-- It has raised the count to `count`. -/
  | counted (currentSyncRound : Int32) (timeout : Int) (count : Int32)
  | waiting (currentSyncRound : Int32) (timeout : Int)
  /-- It is the last thread to sync. -/
  | last
  | guarded
  | cleared
  | advanced
  | notifying
  deriving DecidableEq

/-- A call of `sync`: which one of its thread it is, and the round that it read. -/
structure Call where
  index : Nat
  round : Nat
  deriving DecidableEq

/-- `rounds`, `call`, `arrived` and `returned` are the record. -/
structure World (ι : Type) where
  sync : Synchronizer
  mutex : Option ι
  pc : ι → Pc
  rounds : Nat
  call : ι → Call
  arrived : ι → List Call
  returned : ι → List (Call × Bool)

inductive Action (ι : Type) where
  /-- `sync` is called, with a timeout in nanoseconds. Without one it is `0`. -/
  | call (t : ι) (timeout : Int)
  | next (t : ι)
  /-- The timeout of a thread that waits has passed. -/
  | expire (t : ι)

namespace World

variable {ι : Type}

def init (s : Synchronizer) : World ι where
  sync := s
  mutex := none
  pc := fun _ => .idle
  rounds := 0
  call := fun _ => ⟨0, 0⟩
  arrived := fun _ => []
  returned := fun _ => []

section Steps

variable [DecidableEq ι]

def goto (w : World ι) (t : ι) (pc : Pc) : World ι :=
  { w with pc := Function.update w.pc t pc }

def finish (w : World ι) (t : ι) (b : Bool) : World ι :=
  { w.goto t .idle with
    returned := Function.update w.returned t ((w.call t, b) :: w.returned t) }

/-- The next atomic step of a call. -/
def next (w : World ι) (t : ι) : Option (World ι) :=
  match w.pc t with
  | .idle => none
  | .loaded round timeout =>
      let count := w.sync.syncCount + 1
      some { w.goto t (.counted round timeout count) with
        sync := { w.sync with syncCount := count }
        arrived := Function.update w.arrived t (w.call t :: w.arrived t) }
  | .counted round timeout count =>
      if w.sync.wantedCount ≤ count then some (w.goto t .last)
      else some (w.goto t (.waiting round timeout))
  | .waiting round _ =>
      if w.mutex.isSome then none
      else if w.sync.totalSyncRound ≠ round then some (w.finish t true)
      else some w
  | .last =>
      if w.mutex.isSome then none
      else some { w.goto t .guarded with mutex := some t }
  | .guarded =>
      some { w.goto t .cleared with sync := { w.sync with syncCount := 0 } }
  | .cleared =>
      some { w.goto t .advanced with
        sync := { w.sync with totalSyncRound := w.sync.totalSyncRound + 1 }
        rounds := w.rounds + 1 }
  | .advanced => some { w.goto t .notifying with mutex := none }
  | .notifying => some (w.finish t true)

def step (w : World ι) : Action ι → Option (World ι)
  | .call t timeout =>
      match w.pc t with
      | .idle =>
          some { w.goto t (.loaded w.sync.totalSyncRound timeout) with
            call := Function.update w.call t ⟨(w.call t).index + 1, w.rounds⟩ }
      | _ => none
  | .next t => w.next t
  | .expire t =>
      match w.pc t with
      | .waiting round timeout =>
          if timeout ≤ 0 ∨ w.mutex.isSome then none
          else some (w.finish t (w.sync.totalSyncRound ≠ round))
      | _ => none

end Steps

/-- A thread has made a call in a round that has not returned false. -/
def Participates (w : World ι) (t : ι) (round : Nat) : Prop :=
  ∃ c ∈ w.arrived t, c.round = round ∧ (c, false) ∉ w.returned t

/-- The round of a thread that waits is over, or the thread has ended it. -/
def released (w : World ι) (t : ι) : Bool :=
  match w.pc t with
  | .waiting round _ => w.sync.totalSyncRound ≠ round
  | .advanced => true
  | .notifying => true
  | _ => false

/-- What a reusable barrier promises. -/
structure IsBarrier (w : World ι) : Prop where
  returned : ∀ t c, (c, true) ∈ w.returned t → ∀ u, w.Participates u c.round
  released : ∀ t, w.released t → ∀ u, w.Participates u (w.call t).round
  count : (∀ t, w.pc t = .idle) → w.sync.syncCount = 0

/-- A timeout passes only when the round of the thread that waits is over. -/
def onTime (w : World ι) : Action ι → Bool
  | .expire t => w.released t
  | _ => true

section Runs

variable [DecidableEq ι]

def Reachable (s : Synchronizer) (w : World ι) : Prop :=
  Transition.Reaches step Transition.unrestricted (· = init s) w

/-- The worlds of the runs in which no timeout passes too early. -/
def ReachableOnTime (s : Synchronizer) (w : World ι) : Prop :=
  Transition.Reaches step (fun w a => w.onTime a = true) (· = init s) w

theorem exists_reachable (s : Synchronizer) (actions : List (Action ι)) {P : World ι → Prop}
    [DecidablePred P]
    (h : (Transition.runs step (init s) actions).any (fun w => decide (P w)) = true) :
    ∃ w, Reachable s w ∧ P w :=
  Transition.Reaches.exists_of_runs rfl h

theorem exists_reachableOnTime (s : Synchronizer) (actions : List (Action ι))
    {P : World ι → Prop} [DecidablePred P]
    (h : (Transition.runs (Transition.guarded step onTime) (init s) actions).any
      (fun w => decide (P w)) = true) :
    ∃ w, ReachableOnTime s w ∧ P w :=
  Transition.Reaches.exists_of_runs_guarded rfl h

end Runs

/-! ### Calls meet at a rendezvous -/

/-- The thread is in the round of its call as long as that round is open. -/
def InRound [Fintype ι] (m : Rendezvous ι) (t : ι) (c : Call) : Prop :=
  c.round ≤ m.round ∧ (t ∈ m.present ↔ c.round = m.round)

/-- How a thread takes part in a rendezvous of `total` threads. -/
def Place [Fintype ι] (total : Int32) (m : Rendezvous ι) (t : ι) (c : Call) : Pc → Prop
  | .idle => t ∉ m.present
  | .loaded round _ => t ∉ m.present ∧ c.round = m.round ∧ round = Int32.ofNat m.round
  | .counted round _ count =>
      InRound m t c ∧ round = Int32.ofNat c.round ∧
        (total ≤ count → c.round = m.round ∧ m.present = Finset.univ)
  | .waiting round _ => InRound m t c ∧ round = Int32.ofNat c.round
  | .last => c.round = m.round ∧ m.present = Finset.univ
  | .guarded => c.round = m.round ∧ m.present = Finset.univ
  | .cleared => c.round = m.round ∧ m.present = Finset.univ
  | .advanced => c.round < m.round ∧ t ∉ m.present
  | .notifying => c.round < m.round ∧ t ∉ m.present

/-- The thread raised the count to `total` and has not ended the round yet. -/
def Completes (total : Int32) : Pc → Prop
  | .counted _ _ count => total ≤ count
  | .last => True
  | .guarded => True
  | .cleared => True
  | _ => False

/-- The world is at the open round of a rendezvous. -/
structure Meets [Fintype ι] (total : Int32) (w : World ι) (m : Rendezvous ι) : Prop where
  wanted : w.sync.wantedCount = total
  number : w.sync.totalSyncRound = Int32.ofNat m.round
  rounds : w.rounds = m.round
  place : ∀ u, Place total m u (w.call u) (w.pc u)
  count : (∀ u, w.pc u ≠ .cleared) → w.sync.syncCount = Int32.ofNat m.present.card
  cleared : ∀ u, w.pc u = .cleared → w.sync.syncCount = 0
  unique : ∀ u v, Completes total (w.pc u) → Completes total (w.pc v) → u = v
  arrived : ∀ k, ∀ u ∈ m.attended k, ∃ c ∈ w.arrived u, c.round = k
  returned : ∀ u c b, (c, b) ∈ w.returned u → c.round < m.round ∧ b = true

section Meets

variable [Fintype ι] {total : Int32} {w w' : World ι} {m : Rendezvous ι} {t u : ι} {c : Call}
  {pc : Pc}

theorem Place.present_eq_univ (h : Place total m t c pc) (hpc : Completes total pc) :
    c.round = m.round ∧ m.present = Finset.univ := by
  cases pc with
  | counted => exact h.2.2 hpc
  | last => exact h
  | guarded => exact h
  | cleared => exact h
  | _ => cases hpc

theorem InRound.advance (h : InRound m u c) (hfull : m.present = Finset.univ) :
    InRound (m.advance hfull) u c := by
  have hround : c.round = m.round := h.2.mp (hfull ▸ Finset.mem_univ u)
  refine ⟨?_, ?_⟩
  · rw [m.round_advance hfull]
    omega
  · rw [m.present_advance hfull, m.round_advance hfull, hround]
    simp

/-- Everybody but the thread that ends the round waits for its end. -/
theorem Place.advance (h : Place total m u c pc) (hfull : m.present = Finset.univ)
    (hpc : ¬ Completes total pc) : Place total (m.advance hfull) u c pc := by
  have hmem : u ∈ m.present := hfull ▸ Finset.mem_univ u
  cases pc with
  | idle => exact absurd hmem h
  | loaded => exact absurd hmem h.1
  | counted => exact ⟨h.1.advance hfull, h.2.1, fun hk => absurd hk hpc⟩
  | waiting => exact ⟨h.1.advance hfull, h.2⟩
  | advanced => exact absurd hmem h.2
  | notifying => exact absurd hmem h.2
  | _ => exact absurd trivial hpc

theorem wanted_of_create {s : Synchronizer} (h : create total = .ok s) :
    s = ⟨0, total, 0⟩ := by
  rw [create, initSync] at h
  split at h
  · cases h
  · cases h
    rfl

theorem meets_init {s : Synchronizer} (h : create total = .ok s) :
    Meets total (init s) (Rendezvous.start : Rendezvous ι) := by
  obtain rfl := wanted_of_create h
  exact {
    wanted := rfl
    number := rfl
    rounds := rfl
    place := fun u => Finset.notMem_empty u
    count := fun _ => rfl
    cleared := fun _ _ => rfl
    unique := fun _ _ hu => hu.elim
    arrived := fun _ u hu => absurd hu (Finset.notMem_empty u)
    returned := fun _ _ _ hc => absurd hc List.not_mem_nil }

variable [DecidableEq ι]

/-- The others keep their places when a thread attends the round. -/
theorem Place.attend (h : Place total m u c pc) (hu : u ≠ t) (ht : t ∉ m.present) :
    Place total (m.attend t) u c pc := by
  have hmem : u ∈ (m.attend t).present ↔ u ∈ m.present := by
    rw [m.present_attend, Finset.mem_insert, or_iff_right hu]
  have huniv : m.present ≠ Finset.univ := fun h => ht (h ▸ Finset.mem_univ t)
  cases pc with
  | idle => exact hmem.not.mpr h
  | loaded => exact ⟨hmem.not.mpr h.1, h.2⟩
  | counted =>
    exact ⟨⟨h.1.1, hmem.trans h.1.2⟩, h.2.1, fun hk => absurd (h.2.2 hk).2 huniv⟩
  | waiting => exact ⟨⟨h.1.1, hmem.trans h.1.2⟩, h.2⟩
  | last => exact absurd h.2 huniv
  | guarded => exact absurd h.2 huniv
  | cleared => exact absurd h.2 huniv
  | advanced => exact ⟨h.1, hmem.not.mpr h.2⟩
  | notifying => exact ⟨h.1, hmem.not.mpr h.2⟩

omit [DecidableEq ι] in
theorem Meets.place_of (h : Meets total w m) (hpc : w.pc t = pc) :
    Place total m t (w.call t) pc :=
  hpc ▸ h.place t

theorem Meets.unique_update (h : Meets total w m)
    (hcompletes : Completes total pc → Completes total (w.pc t)) {u v : ι}
    (hu : Completes total (Function.update w.pc t pc u))
    (hv : Completes total (Function.update w.pc t pc v)) : u = v := by
  have hC : ∀ u, Completes total (Function.update w.pc t pc u) → Completes total (w.pc u) :=
    (Function.forall_update_iff w.pc fun u p => Completes total p → Completes total (w.pc u)).mpr
      ⟨hcompletes, fun _ _ hu => hu⟩
  exact h.unique u v (hC u hu) (hC v hv)

/-- Every thread keeps its place but the one that moves. -/
theorem place_update {pcs : ι → Pc} {calls : ι → Call} (hplace : Place total m t c pc)
    (h : ∀ u, u ≠ t → Place total m u (calls u) (pcs u)) (u : ι) :
    Place total m u (Function.update calls t c u) (Function.update pcs t pc u) := by
  by_cases hu : u = t
  · subst hu
    rwa [Function.update_self, Function.update_self]
  · rw [Function.update_of_ne hu, Function.update_of_ne hu]
    exact h u hu

theorem place_update_pc {pcs : ι → Pc} {calls : ι → Call} (hplace : Place total m t (calls t) pc)
    (h : ∀ u, u ≠ t → Place total m u (calls u) (pcs u)) (u : ι) :
    Place total m u (calls u) (Function.update pcs t pc u) := by
  have hupdate := place_update hplace h u
  rwa [Function.update_eq_self] at hupdate

/-- A thread moves, and the rendezvous stays as it is. -/
theorem Meets.move (h : Meets total w m) (hplace : Place total m t c pc)
    (hcompletes : Completes total pc → Completes total (w.pc t))
    (hbefore : w.pc t ≠ .cleared) (hafter : pc ≠ .cleared) (mutex : Option ι) :
    Meets total { w.goto t pc with mutex := mutex, call := Function.update w.call t c } m := by
  have hne : ∀ u, Function.update w.pc t pc u = .cleared → w.pc u = .cleared :=
    (Function.forall_update_iff w.pc fun u p => p = .cleared → w.pc u = .cleared).mpr
      ⟨fun heq => absurd heq hafter, fun _ _ hu => hu⟩
  exact { h with
    place := place_update hplace fun u _ => h.place u
    count := fun hall => h.count fun u hu => by
      have hut : u ≠ t := fun heq => hbefore (heq ▸ hu)
      exact hall u ((Function.update_of_ne hut ..).trans hu)
    cleared := fun u hu => h.cleared u (hne u hu)
    unique := fun _ _ => h.unique_update hcompletes }

/-- The thread goes on with its call. -/
theorem Meets.goto (h : Meets total w m) (hplace : Place total m t (w.call t) pc)
    (hcompletes : Completes total pc → Completes total (w.pc t))
    (hbefore : w.pc t ≠ .cleared) (hafter : pc ≠ .cleared) (mutex : Option ι) :
    Meets total { w.goto t pc with mutex := mutex } m := by
  have hmove := h.move hplace hcompletes hbefore hafter mutex
  rwa [Function.update_eq_self] at hmove

/-- A call returns true when its round is over. -/
theorem Meets.finish (h : Meets total w m) (hround : (w.call t).round < m.round)
    (hpresent : t ∉ m.present) (hbefore : w.pc t ≠ .cleared) :
    Meets total (w.finish t true) m := by
  have hplace : Place total m t (w.call t) .idle := hpresent
  refine { h.goto hplace False.elim hbefore (by simp) w.mutex with
    returned := fun u c b hc => ?_ }
  change (c, b) ∈ Function.update w.returned t ((w.call t, true) :: w.returned t) u at hc
  by_cases hu : u = t
  · subst hu
    rw [Function.update_self, List.mem_cons] at hc
    rcases hc with hc | hc
    · obtain ⟨rfl, rfl⟩ := Prod.mk.inj hc
      exact ⟨hround, rfl⟩
    · exact h.returned u c b hc
  · rw [Function.update_of_ne hu] at hc
    exact h.returned u c b hc

omit [Fintype ι] in
theorem mem_arrived_update (hc : c ∈ w.arrived u) :
    c ∈ Function.update w.arrived t (w.call t :: w.arrived t) u := by
  by_cases hut : u = t
  · subst hut
    rw [Function.update_self]
    exact List.mem_cons_of_mem _ hc
  · rwa [Function.update_of_ne hut]

/-- The thread raises the count. -/
theorem Meets.attend (h : Meets total w m) (hcard : (Fintype.card ι : Int) = total.toInt)
    {round : Int32} {timeout : Int} (hpc : w.pc t = .loaded round timeout) :
    Meets total { w.goto t (.counted round timeout (w.sync.syncCount + 1)) with
      sync := { w.sync with syncCount := w.sync.syncCount + 1 }
      arrived := Function.update w.arrived t (w.call t :: w.arrived t) } (m.attend t) := by
  obtain ⟨habsent, hround, hnumber⟩ := h.place_of hpc
  -- Nobody completes the round as long as the thread is absent.
  have hopen : ∀ u, ¬ Completes total (w.pc u) := fun u hu => by
    have hfull := ((h.place u).present_eq_univ hu).2
    exact habsent (hfull ▸ Finset.mem_univ t)
  have hcleared : ∀ u, w.pc u ≠ .cleared := fun u hu => hopen u (hu ▸ trivial)
  have hcount : w.sync.syncCount + 1 = Int32.ofNat (m.attend t).present.card := by
    rw [h.count hcleared, m.present_attend, Finset.card_insert_of_notMem habsent, Int32.ofNat_add]
    rfl
  have hlast : total ≤ w.sync.syncCount + 1 → (m.attend t).present = Finset.univ := fun hle => by
    refine Rendezvous.present_eq_univ ?_
    rw [hcount, Int32.le_iff_toInt_le, ← hcard] at hle
    have hmax : (m.attend t).present.card ≤ Fintype.card ι := Finset.card_le_univ _
    have hbound := total.toInt_lt
    rw [Int32.toInt_ofNat_of_lt (by omega)] at hle
    omega
  have hplace : Place total (m.attend t) t (w.call t)
      (.counted round timeout (w.sync.syncCount + 1)) := by
    refine ⟨⟨hround.le, ?_⟩, ?_, fun hle => ⟨hround, hlast hle⟩⟩
    · rw [m.present_attend, hround]
      simp
    · rw [hnumber, hround]
  have hlone : ∀ u, Completes total (Function.update w.pc t
      (.counted round timeout (w.sync.syncCount + 1)) u) → u = t := fun u hu => by
    by_contra hut
    rw [Function.update_of_ne hut] at hu
    exact hopen u hu
  exact { h with
    place := place_update_pc hplace fun u hu => (h.place u).attend hu habsent
    count := fun _ => hcount
    cleared := fun u hu => by
      change Function.update w.pc t _ u = _ at hu
      have hut : u = t := hlone u (by rw [hu]; trivial)
      rw [hut, Function.update_self] at hu
      cases hu
    unique := fun u v hu hv => (hlone u hu).trans (hlone v hv).symm
    arrived := fun k u hu => by
      rcases Rendezvous.mem_attended_attend hu with hu | ⟨rfl, rfl⟩
      · obtain ⟨c, hc, hck⟩ := h.arrived k u hu
        exact ⟨c, mem_arrived_update hc, hck⟩
      · refine ⟨w.call u, ?_, hround⟩
        change _ ∈ Function.update w.arrived u (w.call u :: w.arrived u) u
        rw [Function.update_self]
        exact List.mem_cons_self }

/-- The last thread of the round resets the count. -/
theorem Meets.clear (h : Meets total w m) (hpc : w.pc t = .guarded) :
    Meets total { w.goto t .cleared with sync := { w.sync with syncCount := 0 } } m := by
  have hguarded : Place total m t (w.call t) .guarded := h.place_of hpc
  have hplace : Place total m t (w.call t) .cleared := hguarded
  have hcompletes : Completes total (w.pc t) := hpc ▸ trivial
  exact { h with
    place := place_update_pc hplace fun u _ => h.place u
    count := fun hall => absurd (Function.update_self ..) (hall t)
    cleared := fun _ _ => rfl
    unique := fun _ _ => h.unique_update fun _ => hcompletes }

/-- The last thread of the round ends it. -/
theorem Meets.advance (h : Meets total w m) (hpc : w.pc t = .cleared) :
    ∃ m', Meets total { w.goto t .advanced with
      sync := { w.sync with totalSyncRound := w.sync.totalSyncRound + 1 }
      rounds := w.rounds + 1 } m' := by
  obtain ⟨hround, hfull⟩ := h.place_of hpc
  have hopen : ∀ u, u ≠ t → ¬ Completes total (w.pc u) := fun u hu hc =>
    hu (h.unique u t hc (hpc ▸ trivial))
  have hplace : Place total (m.advance hfull) t (w.call t) .advanced := by
    refine ⟨?_, ?_⟩
    · rw [m.round_advance hfull]
      omega
    · rw [m.present_advance hfull]
      exact Finset.notMem_empty t
  refine ⟨m.advance hfull, { h with
    number := ?_
    rounds := congrArg (· + 1) h.rounds
    place := place_update_pc hplace fun u hu => (h.place u).advance hfull (hopen u hu)
    count := fun _ => ?_
    cleared := fun u _ => h.cleared t hpc
    unique := fun _ _ => h.unique_update False.elim
    returned := fun u c b hc => ?_ }⟩
  · rw [m.round_advance hfull, Int32.ofNat_add, ← h.number]
    rfl
  · rw [m.present_advance hfull]
    exact h.cleared t hpc
  · obtain ⟨hlt, hb⟩ := h.returned u c b hc
    rw [m.round_advance hfull]
    exact ⟨by omega, hb⟩

theorem Meets.finish_of_number (h : Meets total w m) {round : Int32} {timeout : Int}
    (hpc : w.pc t = .waiting round timeout) (hnumber : w.sync.totalSyncRound ≠ round) :
    Meets total (w.finish t true) m := by
  obtain ⟨⟨hle, hiff⟩, hround⟩ := h.place_of hpc
  have hne : (w.call t).round ≠ m.round := fun heq => by
    rw [h.number, hround, heq] at hnumber
    exact hnumber rfl
  exact h.finish (Nat.lt_of_le_of_ne hle hne) (hiff.not.mpr hne) (by simp [hpc])

theorem Meets.next (h : Meets total w m) (hcard : (Fintype.card ι : Int) = total.toInt)
    (hnext : w.next t = some w') : ∃ m', Meets total w' m' := by
  rw [World.next] at hnext
  cases hpc : w.pc t with
  | idle =>
    rw [hpc] at hnext
    cases hnext
  | loaded round timeout =>
    rw [hpc] at hnext
    obtain rfl := Option.some.inj hnext
    exact ⟨_, h.attend hcard hpc⟩
  | counted round timeout count =>
    obtain ⟨hin, hround, hlast⟩ := h.place_of hpc
    simp only [hpc] at hnext
    split at hnext
    · next hle =>
      rw [h.wanted] at hle
      obtain rfl := Option.some.inj hnext
      have hplace : Place total m t (w.call t) .last := hlast hle
      exact ⟨m, h.goto hplace (fun _ => hpc ▸ hle) (by simp [hpc]) (by simp) w.mutex⟩
    · obtain rfl := Option.some.inj hnext
      have hplace : Place total m t (w.call t) (.waiting round timeout) := ⟨hin, hround⟩
      exact ⟨m, h.goto hplace False.elim (by simp [hpc]) (by simp) w.mutex⟩
  | waiting round timeout =>
    simp only [hpc] at hnext
    split at hnext
    · cases hnext
    · split at hnext
      · next hnumber =>
        obtain rfl := Option.some.inj hnext
        exact ⟨m, h.finish_of_number hpc hnumber⟩
      · obtain rfl := Option.some.inj hnext
        exact ⟨m, h⟩
  | last =>
    have hlast : Place total m t (w.call t) .last := h.place_of hpc
    have hplace : Place total m t (w.call t) .guarded := hlast
    simp only [hpc] at hnext
    split at hnext
    · cases hnext
    · obtain rfl := Option.some.inj hnext
      exact ⟨m, h.goto hplace (fun _ => hpc ▸ trivial) (by simp [hpc]) (by simp) (some t)⟩
  | guarded =>
    simp only [hpc] at hnext
    obtain rfl := Option.some.inj hnext
    exact ⟨m, h.clear hpc⟩
  | cleared =>
    simp only [hpc] at hnext
    obtain rfl := Option.some.inj hnext
    exact h.advance hpc
  | advanced =>
    have hadvanced : Place total m t (w.call t) .advanced := h.place_of hpc
    have hplace : Place total m t (w.call t) .notifying := hadvanced
    simp only [hpc] at hnext
    obtain rfl := Option.some.inj hnext
    exact ⟨m, h.goto hplace False.elim (by simp [hpc]) (by simp) none⟩
  | notifying =>
    obtain ⟨hround, habsent⟩ := h.place_of hpc
    simp only [hpc] at hnext
    obtain rfl := Option.some.inj hnext
    exact ⟨m, h.finish hround habsent (by simp [hpc])⟩

theorem Meets.step (h : Meets total w m) (hcard : (Fintype.card ι : Int) = total.toInt)
    {a : Action ι} (hontime : w.onTime a) (hstep : w.step a = some w') :
    ∃ m', Meets total w' m' := by
  cases a with
  | call t timeout =>
    rw [World.step] at hstep
    split at hstep
    · next hpc =>
      obtain rfl := Option.some.inj hstep
      have habsent : t ∉ m.present := h.place_of hpc
      have hplace : Place total m t ⟨(w.call t).index + 1, w.rounds⟩
          (.loaded w.sync.totalSyncRound timeout) := ⟨habsent, h.rounds, h.number⟩
      exact ⟨m, h.move hplace False.elim (by simp [hpc]) (by simp) w.mutex⟩
    · cases hstep
  | next t => exact h.next hcard hstep
  | expire t =>
    rw [World.step] at hstep
    split at hstep
    · next round timeout hpc =>
      split at hstep
      · cases hstep
      · have hnumber : w.sync.totalSyncRound ≠ round := by
          simpa only [onTime, released, hpc, decide_eq_true_eq] using hontime
        rw [decide_eq_true hnumber] at hstep
        obtain rfl := Option.some.inj hstep
        exact ⟨m, h.finish_of_number hpc hnumber⟩
    · cases hstep

omit [DecidableEq ι] in
/-- Everybody has taken part in a round that is over. -/
theorem Meets.participates (h : Meets total w m) {round : Nat} (hround : round < m.round) (u : ι) :
    w.Participates u round := by
  obtain ⟨c, hc, hcround⟩ := h.arrived round u (m.mem_attended hround u)
  exact ⟨c, hc, hcround, fun hfalse => Bool.noConfusion (h.returned u c false hfalse).2⟩

omit [DecidableEq ι] in
theorem Meets.isBarrier (h : Meets total w m) : w.IsBarrier := by
  refine ⟨fun t c hc u => h.participates (h.returned t c true hc).1 u,
    fun t ht u => h.participates ?_ u, fun hidle => ?_⟩
  · rw [released] at ht
    split at ht
    · next round timeout hpc =>
      rw [decide_eq_true_eq] at ht
      obtain ⟨⟨hle, -⟩, hround⟩ := h.place_of hpc
      refine Nat.lt_of_le_of_ne hle fun heq => ht ?_
      rw [h.number, hround, heq]
    · next hpc => exact (h.place_of hpc).1
    · next hpc => exact (h.place_of hpc).1
    · cases ht
  · have hpresent : m.present = ∅ :=
      Finset.eq_empty_of_forall_notMem fun u => h.place_of (hidle u)
    rw [h.count fun u hu => by simp [hidle u] at hu, hpresent, Finset.card_empty]
    rfl

/-- A run in which no timeout passes too early keeps what a reusable barrier
promises. -/
theorem isBarrier_of_reaches {s : Synchronizer} (hs : create total = .ok s)
    (hcard : (Fintype.card ι : Int) = total.toInt)
    (h : ReachableOnTime s w) : w.IsBarrier := by
  obtain ⟨m, hm⟩ := Transition.Reaches.invariant (I := fun w => ∃ m, Meets total w m)
    (fun _ hw => ⟨_, hw ▸ meets_init hs⟩)
    (fun _ _ _ ⟨_, hm⟩ hontime hstep => hm.step hcard hontime hstep) h
  exact hm.isBarrier

local instance twoCallers : NeZero 2 := ⟨two_ne_zero⟩

/-- Two threads meet; the timeout of the first one passes after the round. -/
def meeting : List (Action (Fin 2)) :=
  [.call 0 5, .call 1 0, .next 0, .next 0, .next 1, .next 1, .next 1, .next 1, .next 1, .next 1,
    .expire 0, .next 1]

theorem isBarrier_of_reaches_meeting : ∃ w : World (Fin 2), w.IsBarrier ∧
    w.returned 0 = [(⟨1, 0⟩, true)] ∧ w.returned 1 = [(⟨1, 0⟩, true)] := by
  obtain ⟨w, hw, hreturned⟩ := exists_reachableOnTime ⟨0, 2, 0⟩ meeting
    (P := fun w => w.returned 0 = [(⟨1, 0⟩, true)] ∧ w.returned 1 = [(⟨1, 0⟩, true)])
    (by decide +kernel)
  have hcreate : create 2 = .ok ⟨0, 2, 0⟩ := rfl
  exact ⟨w, isBarrier_of_reaches hcreate (by decide) hw, hreturned⟩

/-- A call that has timed out still counts: the second one of the same thread
returns true, and the other thread has made none. -/
def lonely : List (Action (Fin 2)) :=
  [.call 0 5, .next 0, .next 0, .expire 0, .call 0 0, .next 0, .next 0, .next 0, .next 0, .next 0,
    .next 0, .next 0]

theorem not_isBarrier : ¬ ∀ (s : Synchronizer) (w : World (Fin 2)), create 2 = .ok s →
    Reachable s w → w.IsBarrier := by
  intro h
  obtain ⟨w, hw, hreturned, harrived⟩ := exists_reachable ⟨0, 2, 0⟩ lonely
    (P := fun w => (⟨2, 0⟩, true) ∈ w.returned 0 ∧ w.arrived 1 = []) (by decide +kernel)
  obtain ⟨c, hc, -⟩ := (h _ w rfl hw).returned 0 _ hreturned 1
  rw [harrived] at hc
  cases hc

end Meets

end World

end Synchronizer

end Sihd.Util
