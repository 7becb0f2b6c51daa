import Sihd.Util.WorkerStarts

/-!
# The meetings of a worker

A call that synchronises and the thread that it has started are a pair at the synchronizer of
the worker. Starts in order leave nobody alone there.
-/

namespace Sihd.Util.Worker

open Synchronizer (Entry Pair Moves)

/-- Nobody is to meet. -/
structure Apart {ι : Type} (pc : ι → Pc) (thread : Nat → ThreadPc) (sync : Synchronizer)
    (entered : List (Option Nat)) (preRuns : List Nat) : Prop where
  callers : ∀ t, (pc t).syncThread = none
  threads : ∀ k, (thread k).isSyncing = false
  count : sync.syncCount = 0
  unread : ∀ k, (thread k).isUnread = true → ∀ u, (pc u).modifier = none
  record : ∀ k, some k ∈ entered ↔ k ∈ preRuns

/-- The call of `c` and the thread `k` are to meet, or have met. -/
structure Together {ι : Type} (c : ι) (k : Nat) (pc : ι → Pc) (thread : Nat → ThreadPc)
    (inside : Party ι → Synchronizer.Pc) (sync : Synchronizer) (entered : List (Option Nat))
    (preRuns : List Nat) : Prop where
  pair : Pair ((pc c).entry (inside (.inl c))) ((thread k).entry (inside (.inr k)))
    sync.syncCount sync.totalSyncRound
  callers : ∀ t j, (pc t).syncThread = some j → t = c ∧ j = k
  threads : ∀ j, (thread j).isSyncing = true → j = k
  others : ∀ j, j ≠ k → (some j ∈ entered ↔ j ∈ preRuns)
  caller : some k ∈ entered ↔ (pc c).entry (inside (.inl c)) ≠ .notYet
  thread : k ∈ preRuns ↔ (thread k).entry (inside (.inr k)) ≠ .notYet

structure Meeting {ι : Type} (pc : ι → Pc) (thread : Nat → ThreadPc) (threads : Nat)
    (inside : Party ι → Synchronizer.Pc) (sync : Synchronizer) (entered : List (Option Nat))
    (preRuns : List Nat) : Prop where
  wanted : sync.wantedCount = 2
  entering : ∀ t oldVal, pc t ≠ .entering oldVal none ∧ pc t ≠ .syncing oldVal none
  lost : none ∉ entered
  nodup_entered : entered.Nodup
  nodup_preRuns : preRuns.Nodup
  entered_lt : ∀ k, some k ∈ entered → k < threads
  preRuns_lt : ∀ k ∈ preRuns, k < threads
  phase : Apart pc thread sync entered preRuns ∨
    ∃ c k, k + 1 = threads ∧ Together c k pc thread inside sync entered preRuns

theorem Pc.syncThread_eq_none {pc : Pc} (h : pc.modifier = none) : pc.syncThread = none := by
  cases pc with
  | assigning sync k =>
    cases sync with
    | none => rfl
    | some oldVal => cases h
  | ending sync thread =>
    cases sync with
    | none => rfl
    | some oldVal => cases h
  | entering => cases h
  | syncing => cases h
  | _ => rfl

theorem Pc.entry_eq_left {pc : Pc} (h : pc.modifier = none) (b : Synchronizer.Pc) :
    pc.entry b = .left := by
  have hnone := syncThread_eq_none h
  cases pc with
  | syncing => cases h
  | _ =>
    rw [entry, hnone]
    · rfl
    · nofun

/-- A call that is to meet its thread has raised the flag. -/
theorem Pc.modifier_of_entry_ne_left {pc : Pc} {b : Synchronizer.Pc} (h : pc.entry b ≠ .left) :
    ∃ oldVal, pc.modifier = some (oldVal, true) := by
  cases pc with
  | assigning sync k =>
    cases sync with
    | none => exact absurd rfl h
    | some oldVal => exact ⟨oldVal, rfl⟩
  | ending sync thread =>
    cases sync with
    | none => exact absurd rfl h
    | some oldVal => exact ⟨oldVal, rfl⟩
  | entering oldVal => exact ⟨oldVal, rfl⟩
  | syncing oldVal => exact ⟨oldVal, rfl⟩
  | _ => exact absurd rfl h

theorem Pc.exists_syncThread {pc : Pc} {b : Synchronizer.Pc} (h : pc.entry b ≠ .left)
    (hsyncing : ∀ oldVal, pc ≠ .syncing oldVal none) : ∃ k, pc.syncThread = some k := by
  cases hthread : pc.syncThread with
  | some k => exact ⟨k, rfl⟩
  | none =>
    cases pc with
    | syncing oldVal thread =>
      have hnone : thread = none := hthread
      rw [hnone] at hsyncing
      exact absurd rfl (hsyncing oldVal)
    | _ =>
      rw [entry, hthread] at h
      · exact absurd rfl h
      · nofun

theorem ThreadPc.isUnread_of_entry {pc : ThreadPc} {b : Synchronizer.Pc}
    (h : pc.entry b = .notYet) (hborn : pc ≠ .unborn) : pc.isUnread = true := by
  cases pc with
  | unborn => exact absurd rfl hborn
  | created => rfl
  | saved => rfl
  | modified => rfl
  | _ => cases h

theorem ThreadPc.isSyncing_of_waits {pc : ThreadPc} {b : Synchronizer.Pc} {round : Int32}
    (h : (pc.entry b).Waits round) : pc.isSyncing = true := by
  cases pc with
  | syncing => rfl
  | _ => cases h

theorem wanted_of_moves {b b' : Synchronizer.Pc} {s s' : Synchronizer} (h : Moves b s b' s') :
    s'.wantedCount = s.wantedCount := by
  cases h <;> rfl

namespace Meeting

variable {ι : Type} {pc : ι → Pc} {thread : Nat → ThreadPc} {threads : Nat}
  {inside : Party ι → Synchronizer.Pc} {sync : Synchronizer} {entered : List (Option Nat)}
  {preRuns : List Nat} {t : ι} {k : Nat} {pc' : Pc}

theorem init : Meeting (fun _ : ι => Pc.idle) (fun _ => .unborn) 0 (fun _ => .idle) ⟨0, 2, 0⟩
    [] [] where
  wanted := rfl
  entering _ _ := ⟨nofun, nofun⟩
  lost := List.not_mem_nil
  nodup_entered := List.nodup_nil
  nodup_preRuns := List.nodup_nil
  entered_lt _ hk := absurd hk List.not_mem_nil
  preRuns_lt _ hk := absurd hk List.not_mem_nil
  phase := .inl {
    callers := fun _ => rfl
    threads := fun _ => rfl
    count := rfl
    unread := fun _ hk => by cases hk
    record := fun _ => ⟨(absurd · List.not_mem_nil), (absurd · List.not_mem_nil)⟩ }

variable [DecidableEq ι]

/-- A call goes on and is as far from its meeting as before. -/
theorem stay (h : Meeting pc thread threads inside sync entered preRuns)
    (hthread : pc'.syncThread = (pc t).syncThread)
    (hentry : ∀ b, pc'.entry b = (pc t).entry b)
    (hentering : ∀ oldVal, pc' ≠ .entering oldVal none ∧ pc' ≠ .syncing oldVal none)
    (hmodifier : (pc t).modifier = none → pc'.modifier = none ∨
      ∀ k, (thread k).isUnread = false) :
    Meeting (Function.update pc t pc') thread threads inside sync entered preRuns := by
  have heq : ∀ u, (Function.update pc t pc' u).syncThread = (pc u).syncThread := fun u => by
    by_cases hne : u = t
    · rw [hne, Function.update_self, hthread]
    · rw [Function.update_of_ne hne]
  have hentryEq : ∀ u b, (Function.update pc t pc' u).entry b = (pc u).entry b := fun u b => by
    by_cases hne : u = t
    · rw [hne, Function.update_self, hentry]
    · rw [Function.update_of_ne hne]
  refine { h with entering := fun u oldVal => ?_, phase := ?_ }
  · by_cases hne : u = t
    · rw [hne, Function.update_self]
      exact hentering oldVal
    · rw [Function.update_of_ne hne]
      exact h.entering u oldVal
  · rcases h.phase with hapart | ⟨c, k, hk, htogether⟩
    · refine .inl { hapart with callers := fun u => by rw [heq, hapart.callers u], unread := ?_ }
      intro k hk u
      have hnone := hapart.unread k hk
      by_cases hne : u = t
      · rw [hne, Function.update_self]
        rcases hmodifier (hnone t) with hmodifier | hread
        · exact hmodifier
        · rw [hread k] at hk
          cases hk
      · rw [Function.update_of_ne hne]
        exact hnone u
    · refine .inr ⟨c, k, hk, { htogether with pair := ?_, callers := ?_, caller := ?_ }⟩
      · rw [hentryEq]
        exact htogether.pair
      · simpa only [heq] using htogether.callers
      · rw [hentryEq]
        exact htogether.caller

omit [DecidableEq ι] in
/-- A thread goes on and is as far from its meeting as before. -/
theorem stayThread (h : Meeting pc thread threads inside sync entered preRuns)
    {threadPc : ThreadPc} (hentry : ∀ b, threadPc.entry b = (thread k).entry b)
    (hsyncing : threadPc.isSyncing = (thread k).isSyncing)
    (hunread : threadPc.isUnread = true → (thread k).isUnread = true) :
    Meeting pc (Function.update thread k threadPc) threads inside sync entered preRuns := by
  have heq : ∀ j, (Function.update thread k threadPc j).isSyncing = (thread j).isSyncing :=
    fun j => by
      by_cases hne : j = k
      · rw [hne, Function.update_self, hsyncing]
      · rw [Function.update_of_ne hne]
  have hentryEq : ∀ j b, (Function.update thread k threadPc j).entry b = (thread j).entry b :=
    fun j b => by
      by_cases hne : j = k
      · rw [hne, Function.update_self, hentry]
      · rw [Function.update_of_ne hne]
  refine { h with phase := ?_ }
  rcases h.phase with hapart | ⟨c, l, hl, htogether⟩
  · refine .inl { hapart with threads := fun j => by rw [heq, hapart.threads j], unread := ?_ }
    intro j hj
    by_cases hne : j = k
    · rw [hne, Function.update_self] at hj
      exact hapart.unread k (hunread hj)
    · rw [Function.update_of_ne hne] at hj
      exact hapart.unread j hj
  · refine .inr ⟨c, l, hl, { htogether with pair := ?_, threads := ?_, thread := ?_ }⟩
    · rw [hentryEq]
      exact htogether.pair
    · simpa only [heq] using htogether.threads
    · rw [hentryEq]
      exact htogether.thread

omit [DecidableEq ι] in
/-- When nobody is to meet any more, the last pair has met. -/
theorem roundOver (h : Meeting pc thread threads inside sync entered preRuns)
    (hcallers : ∀ u b, (pc u).entry b = .left) (hfinished : ∀ j, j < threads →
      thread j = .finished) :
    sync.syncCount = 0 ∧ ∀ j, some j ∈ entered ↔ j ∈ preRuns := by
  rcases h.phase with hapart | ⟨c, k, hk, htogether⟩
  · exact ⟨hapart.count, hapart.record⟩
  · have hthread : (thread k).entry (inside (.inr k)) = .left := by
      rw [hfinished k (by omega)]
      rfl
    have hpair := htogether.pair
    rw [hcallers, hthread] at hpair
    refine ⟨hpair.count_of_left, fun j => ?_⟩
    by_cases hne : j = k
    · have hcaller : some k ∈ entered := htogether.caller.mpr (by rw [hcallers]; nofun)
      have hpreRun : k ∈ preRuns := htogether.thread.mpr (by rw [hthread]; nofun)
      rw [hne]
      exact iff_of_true hcaller hpreRun
    · exact htogether.others j hne

/-- The thread of a call of `start_worker` alone. -/
theorem construct_plain (h : Meeting pc thread threads inside sync entered preRuns)
    (hmodifier : ∀ u, (pc u).modifier = none) (hfinished : ∀ j, j < threads →
      thread j = .finished) (hunborn : ∀ j, threads ≤ j → thread j = .unborn) :
    Meeting (Function.update pc t (.assigning none threads))
      (Function.update thread threads .created) (threads + 1) inside sync entered preRuns := by
  obtain ⟨hcount, hrecord⟩ := h.roundOver (fun u => Pc.entry_eq_left (hmodifier u)) hfinished
  have hnone : ∀ u, (Function.update pc t (.assigning none threads) u).modifier = none :=
    fun u => by
      by_cases hne : u = t
      · rw [hne, Function.update_self]
        rfl
      · rw [Function.update_of_ne hne, hmodifier u]
  refine { h with
    entering := fun u oldVal => ?_
    entered_lt := fun k hk => Nat.lt_succ_of_lt (h.entered_lt k hk)
    preRuns_lt := fun k hk => Nat.lt_succ_of_lt (h.preRuns_lt k hk)
    phase := .inl {
      callers := fun u => Pc.syncThread_eq_none (hnone u)
      threads := fun j => ?_
      count := hcount
      unread := fun _ _ => hnone
      record := hrecord } }
  · have hself := hnone u
    constructor <;> intro heq <;> rw [heq] at hself <;> cases hself
  · by_cases hne : j = threads
    · rw [hne, Function.update_self]
      rfl
    · rw [Function.update_of_ne hne]
      rcases Nat.lt_or_gt_of_ne hne with hlt | hlt
      · rw [hfinished j hlt]
        rfl
      · rw [hunborn j hlt.le]
        rfl

/-- The thread of a call that synchronises is to meet it. -/
theorem construct_sync (h : Meeting pc thread threads inside sync entered preRuns)
    {oldVal : Bool} (ht : pc t = .constructing (some oldVal))
    (hmodifier : ∀ u, u ≠ t → (pc u).modifier = none) (hfinished : ∀ j, j < threads →
      thread j = .finished) (hunborn : ∀ j, threads ≤ j → thread j = .unborn) :
    Meeting (Function.update pc t (.assigning (some oldVal) threads))
      (Function.update thread threads .created) (threads + 1) inside sync entered preRuns := by
  have hcallers : ∀ u b, (pc u).entry b = .left := fun u b => by
    by_cases hne : u = t
    · rw [hne, ht]
      rfl
    · exact Pc.entry_eq_left (hmodifier u hne) b
  obtain ⟨hcount, hrecord⟩ := h.roundOver hcallers hfinished
  have hsyncing : ∀ j, (Function.update thread threads .created j).isSyncing = false := fun j => by
    by_cases hne : j = threads
    · rw [hne, Function.update_self]
      rfl
    · rw [Function.update_of_ne hne]
      rcases Nat.lt_or_gt_of_ne hne with hlt | hlt
      · rw [hfinished j hlt]
        rfl
      · rw [hunborn j hlt.le]
        rfl
  refine { h with
    entering := fun u old => ?_
    entered_lt := fun k hk => Nat.lt_succ_of_lt (h.entered_lt k hk)
    preRuns_lt := fun k hk => Nat.lt_succ_of_lt (h.preRuns_lt k hk)
    phase := .inr ⟨t, threads, rfl, {
      pair := ?_
      callers := fun u j hu => ?_
      threads := fun j hj => by rw [hsyncing j] at hj; cases hj
      others := fun j _ => hrecord j
      caller := ?_
      thread := ?_ }⟩ }
  · by_cases hne : u = t
    · rw [hne, Function.update_self]
      exact ⟨nofun, nofun⟩
    · rw [Function.update_of_ne hne]
      exact h.entering u old
  · rw [Function.update_self, Function.update_self]
    exact .inl (.nobody trivial trivial hcount)
  · by_cases hne : u = t
    · rw [hne, Function.update_self] at hu
      exact ⟨hne, (Option.some.inj hu).symm⟩
    · rw [Function.update_of_ne hne, Pc.syncThread_eq_none (hmodifier u hne)] at hu
      cases hu
  · rw [Function.update_self]
    exact iff_of_false (fun hk => Nat.lt_irrefl _ (h.entered_lt _ hk)) (not_not_intro rfl)
  · rw [Function.update_self]
    exact iff_of_false (fun hk => Nat.lt_irrefl _ (h.preRuns_lt _ hk)) (not_not_intro rfl)

omit [DecidableEq ι] in
/-- A call with a thread to meet is together with it. -/
theorem together_of_syncThread (h : Meeting pc thread threads inside sync entered preRuns)
    (ht : (pc t).syncThread = some k) :
    k + 1 = threads ∧ Together t k pc thread inside sync entered preRuns := by
  rcases h.phase with hapart | ⟨c, l, hl, htogether⟩
  · rw [hapart.callers t] at ht
    cases ht
  · obtain ⟨rfl, rfl⟩ := htogether.callers t k ht
    exact ⟨hl, htogether⟩

/-- A call comes to the synchronizer. -/
theorem enter (h : Meeting pc thread threads inside sync entered preRuns) {oldVal : Bool}
    {o : Option Nat} (ht : pc t = .entering oldVal o) {timeout : Int} :
    Meeting (Function.update pc t (.syncing oldVal o)) thread threads
      (Function.update inside (.inl t) (.loaded sync.totalSyncRound timeout)) sync (o :: entered)
      preRuns := by
  cases o with
  | none => exact absurd ht (h.entering t oldVal).1
  | some k =>
    have hthread : (pc t).syncThread = some k := by rw [ht]; rfl
    obtain ⟨hk, htogether⟩ := h.together_of_syncThread hthread
    have hentry : (pc t).entry (inside (.inl t)) = .notYet := by rw [ht]; rfl
    have hpair := htogether.pair
    rw [hentry] at hpair
    have hnew : some k ∉ entered := fun hmem => htogether.caller.mp hmem hentry
    exact { h with
      entering := fun u old => by
        by_cases hne : u = t
        · rw [hne, Function.update_self]
          exact ⟨nofun, nofun⟩
        · rw [Function.update_of_ne hne]
          exact h.entering u old
      lost := fun hmem => by
        rcases List.mem_cons.mp hmem with heq | hmem
        · cases heq
        · exact h.lost hmem
      nodup_entered := List.nodup_cons.mpr ⟨hnew, h.nodup_entered⟩
      entered_lt := fun j hj => by
        rcases List.mem_cons.mp hj with heq | hj
        · rw [Option.some.inj heq]
          omega
        · exact h.entered_lt j hj
      phase := .inr ⟨t, k, hk, {
        pair := by
          rw [Function.update_self, Function.update_self, Function.update_of_ne Sum.inr_ne_inl]
          exact hpair.enter
        callers := fun u j hu => by
          by_cases hne : u = t
          · rw [hne, Function.update_self] at hu
            exact ⟨hne, (Option.some.inj hu).symm⟩
          · rw [Function.update_of_ne hne] at hu
            exact htogether.callers u j hu
        threads := htogether.threads
        others := fun j hne => by
          rw [← htogether.others j hne, List.mem_cons]
          exact or_iff_right fun heq => hne (Option.some.inj heq)
        caller := by
          rw [Function.update_self, Function.update_self]
          exact iff_of_true List.mem_cons_self nofun
        thread := by
          rw [Function.update_of_ne Sum.inr_ne_inl]
          exact htogether.thread }⟩ }

/-- A call moves in the synchronizer, and leaves it. -/
theorem moveCaller (h : Meeting pc thread threads inside sync entered preRuns) {oldVal : Bool}
    {o : Option Nat} (ht : pc t = .syncing oldVal o) {b : Synchronizer.Pc} {sync' : Synchronizer}
    (hmoves : Moves (inside (.inl t)) sync b sync') :
    Meeting (Function.update pc t (if b = .idle then .restoring oldVal else .syncing oldVal o))
      thread threads (Function.update inside (.inl t) b) sync' entered preRuns := by
  cases o with
  | none => exact absurd ht (h.entering t oldVal).2
  | some k =>
    have hthread : (pc t).syncThread = some k := by rw [ht]; rfl
    obtain ⟨hk, htogether⟩ := h.together_of_syncThread hthread
    have hentry : (pc t).entry (inside (.inl t)) = .inside (inside (.inl t)) := by rw [ht]; rfl
    have hpair := htogether.pair
    rw [hentry] at hpair
    have hmem : some k ∈ entered := htogether.caller.mpr (by rw [hentry]; nofun)
    have hnext : (if b = .idle then Pc.restoring oldVal else .syncing oldVal (some k)).entry b =
        Entry.next b := by
      cases b <;> rfl
    exact { h with
      wanted := (wanted_of_moves hmoves).trans h.wanted
      entering := fun u old => by
        by_cases hne : u = t
        · rw [hne, Function.update_self]
          constructor <;> split <;> nofun
        · rw [Function.update_of_ne hne]
          exact h.entering u old
      phase := .inr ⟨t, k, hk, { htogether with
        pair := by
          rw [Function.update_self, Function.update_self, Function.update_of_ne Sum.inr_ne_inl, hnext]
          exact hpair.move h.wanted hmoves
        callers := fun u j hu => by
          by_cases hne : u = t
          · rw [hne, Function.update_self] at hu
            split at hu
            · cases hu
            · exact ⟨hne, (Option.some.inj hu).symm⟩
          · rw [Function.update_of_ne hne] at hu
            exact htogether.callers u j hu
        caller := by
          rw [Function.update_self, Function.update_self, hnext]
          refine iff_of_true hmem ?_
          cases b <;> nofun
        thread := by
          rw [Function.update_of_ne Sum.inr_ne_inl]
          exact htogether.thread }⟩ }

omit [DecidableEq ι]

/-- A thread that looks at a raised flag is to meet the call that has raised it. -/
theorem exists_together (h : Meeting pc thread threads inside sync entered preRuns)
    (hk : k + 1 = threads) (hunread : (thread k).isUnread = true)
    (hraised : ∃ u, (pc u).modifier ≠ none) :
    ∃ c, Together c k pc thread inside sync entered preRuns := by
  rcases h.phase with hapart | ⟨c, l, hl, htogether⟩
  · obtain ⟨u, hu⟩ := hraised
    exact absurd (hapart.unread k hunread u) hu
  · obtain rfl : k = l := by omega
    exact ⟨c, htogether⟩

/-- A thread that looks at a lowered flag is to meet nobody. -/
theorem apart_of_lowered (h : Meeting pc thread threads inside sync entered preRuns)
    (hk : k + 1 = threads) (hunread : (thread k).isUnread = true)
    (hlowered : ∀ u oldVal, (pc u).modifier ≠ some (oldVal, true)) :
    Apart pc thread sync entered preRuns := by
  rcases h.phase with hapart | ⟨c, l, hl, htogether⟩
  · exact hapart
  · obtain rfl : k = l := by omega
    have hentry : (thread k).entry (inside (.inr k)) = .notYet := by
      cases hpc : thread k <;> rw [hpc] at hunread <;> first | rfl | cases hunread
    have hleft : (pc c).entry (inside (.inl c)) ≠ .left := fun hleft => by
      have hpair := htogether.pair
      rw [hleft] at hpair
      exact hpair.ne_notYet_of_left hentry
    obtain ⟨oldVal, hmodifier⟩ := Pc.modifier_of_entry_ne_left hleft
    exact absurd hmodifier (hlowered c oldVal)

variable [DecidableEq ι]

/-- A thread comes to the synchronizer. -/
theorem enterThread (h : Meeting pc thread threads inside sync entered preRuns) {oldVal : Bool}
    (hpc : thread k = .modified oldVal) (hk : k + 1 = threads)
    (hraised : ∃ u, (pc u).modifier ≠ none) {timeout : Int} :
    Meeting pc (Function.update thread k (.syncing oldVal)) threads
      (Function.update inside (.inr k) (.loaded sync.totalSyncRound timeout)) sync entered
      (k :: preRuns) := by
  obtain ⟨c, htogether⟩ := h.exists_together hk (by rw [hpc]; rfl) hraised
  have hentry : (thread k).entry (inside (.inr k)) = .notYet := by rw [hpc]; rfl
  have hpair := htogether.pair
  rw [hentry] at hpair
  have hnew : k ∉ preRuns := fun hmem => htogether.thread.mp hmem hentry
  exact { h with
    nodup_preRuns := List.nodup_cons.mpr ⟨hnew, h.nodup_preRuns⟩
    preRuns_lt := fun j hj => by
      rcases List.mem_cons.mp hj with heq | hj
      · omega
      · exact h.preRuns_lt j hj
    phase := .inr ⟨c, k, hk, {
      pair := by
        rw [Function.update_self, Function.update_self, Function.update_of_ne Sum.inl_ne_inr]
        exact hpair.symm.enter.symm
      callers := htogether.callers
      threads := fun j hj => by
        by_cases hne : j = k
        · exact hne
        · rw [Function.update_of_ne hne] at hj
          exact htogether.threads j hj
      others := fun j hne => by
        rw [htogether.others j hne, List.mem_cons]
        exact (or_iff_right hne).symm
      caller := by
        rw [Function.update_of_ne Sum.inl_ne_inr]
        exact htogether.caller
      thread := by
        rw [Function.update_self, Function.update_self]
        exact iff_of_true List.mem_cons_self nofun }⟩ }

omit [DecidableEq ι] in
/-- A thread does not come to the synchronizer. -/
theorem skipThread (h : Meeting pc thread threads inside sync entered preRuns) {oldVal : Bool}
    (hpc : thread k = .modified oldVal) (hk : k + 1 = threads)
    (hlowered : ∀ u oldVal, (pc u).modifier ≠ some (oldVal, true)) :
    Meeting pc (Function.update thread k (.running oldVal)) threads inside sync entered
      preRuns := by
  have hapart := h.apart_of_lowered hk (by rw [hpc]; rfl) hlowered
  refine { h with phase := .inl { hapart with threads := fun j => ?_, unread := fun j hj => ?_ } }
  · by_cases hne : j = k
    · rw [hne, Function.update_self]
      rfl
    · rw [Function.update_of_ne hne]
      exact hapart.threads j
  · by_cases hne : j = k
    · rw [hne, Function.update_self] at hj
      cases hj
    · rw [Function.update_of_ne hne] at hj
      exact hapart.unread j hj

/-- A thread moves in the synchronizer, and leaves it. -/
theorem moveThread (h : Meeting pc thread threads inside sync entered preRuns) {oldVal : Bool}
    (hpc : thread k = .syncing oldVal) {b : Synchronizer.Pc} {sync' : Synchronizer}
    (hmoves : Moves (inside (.inr k)) sync b sync') :
    Meeting pc
      (Function.update thread k (if b = .idle then .running oldVal else .syncing oldVal)) threads
      (Function.update inside (.inr k) b) sync' entered preRuns := by
  rcases h.phase with hapart | ⟨c, l, hl, htogether⟩
  · have hsyncing := hapart.threads k
    rw [hpc] at hsyncing
    cases hsyncing
  · obtain rfl : k = l := htogether.threads k (by rw [hpc]; rfl)
    have hentry : (thread k).entry (inside (.inr k)) = .inside (inside (.inr k)) := by
      rw [hpc]
      rfl
    have hpair := htogether.pair
    rw [hentry] at hpair
    have hmem : k ∈ preRuns := htogether.thread.mpr (by rw [hentry]; nofun)
    have hnext : (if b = .idle then ThreadPc.running oldVal else .syncing oldVal).entry b =
        Entry.next b := by
      cases b <;> rfl
    exact { h with
      wanted := (wanted_of_moves hmoves).trans h.wanted
      phase := .inr ⟨c, k, hl, { htogether with
        pair := by
          rw [Function.update_self, Function.update_self, Function.update_of_ne Sum.inl_ne_inr, hnext]
          exact (hpair.symm.move h.wanted hmoves).symm
        threads := fun j hj => by
          by_cases hne : j = k
          · exact hne
          · rw [Function.update_of_ne hne] at hj
            exact htogether.threads j hj
        caller := by
          rw [Function.update_of_ne Sum.inl_ne_inr]
          exact htogether.caller
        thread := by
          rw [Function.update_self, Function.update_self, hnext]
          refine iff_of_true hmem ?_
          cases b <;> nofun }⟩ }

end Meeting

end Sihd.Util.Worker
