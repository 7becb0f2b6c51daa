import Sihd.Util.Synchronizer

/-!
# A pair at a synchronizer

Two parties meet once at a synchronizer of two that others may have used before them. Whatever
the order of their steps, the count is zero again when both have left, and none of them waits
for an end of the round that the other one has not to bring.
-/

namespace Sihd.Util.Synchronizer

/-- What one step of a call does, whoever makes it. -/
inductive Moves : Pc → Synchronizer → Pc → Synchronizer → Prop
  | count {s : Synchronizer} {round : Int32} {timeout : Int} :
      Moves (.loaded round timeout) s (.counted round timeout (s.syncCount + 1))
        { s with syncCount := s.syncCount + 1 }
  | complete {s : Synchronizer} {round count : Int32} {timeout : Int}
      (h : s.wantedCount ≤ count) : Moves (.counted round timeout count) s .last s
  | wait {s : Synchronizer} {round count : Int32} {timeout : Int}
      (h : ¬ s.wantedCount ≤ count) : Moves (.counted round timeout count) s
        (.waiting round timeout) s
  | wake {s : Synchronizer} {round : Int32} {timeout : Int} (h : s.totalSyncRound ≠ round) :
      Moves (.waiting round timeout) s .idle s
  | stay {s : Synchronizer} {round : Int32} {timeout : Int} :
      Moves (.waiting round timeout) s (.waiting round timeout) s
  | guard {s : Synchronizer} : Moves .last s .guarded s
  | clear {s : Synchronizer} : Moves .guarded s .cleared { s with syncCount := 0 }
  | advance {s : Synchronizer} :
      Moves .cleared s .advanced { s with totalSyncRound := s.totalSyncRound + 1 }
  | release {s : Synchronizer} : Moves .advanced s .notifying s
  | leave {s : Synchronizer} : Moves .notifying s .idle s

namespace World

variable {ι : Type} [DecidableEq ι] {w w' : World ι} {t : ι}

theorem moves_of_step_next (h : w.step (.next t) = some w') :
    ∃ pc, Moves (w.pc t) w.sync pc w'.sync ∧ w'.pc = Function.update w.pc t pc := by
  change w.next t = some w' at h
  rw [World.next] at h
  cases hpc : w.pc t with
  | idle =>
    rw [hpc] at h
    cases h
  | loaded round timeout =>
    rw [hpc] at h
    obtain rfl := Option.some.inj h
    exact ⟨_, .count, rfl⟩
  | counted round timeout count =>
    simp only [hpc] at h
    split at h
    · next hle =>
      obtain rfl := Option.some.inj h
      exact ⟨_, .complete hle, rfl⟩
    · next hle =>
      obtain rfl := Option.some.inj h
      exact ⟨_, .wait hle, rfl⟩
  | waiting round timeout =>
    simp only [hpc] at h
    split at h
    · cases h
    · split at h
      · next hround =>
        obtain rfl := Option.some.inj h
        exact ⟨_, .wake hround, rfl⟩
      · obtain rfl := Option.some.inj h
        refine ⟨_, .stay, ?_⟩
        rw [← hpc, Function.update_eq_self]
  | last =>
    simp only [hpc] at h
    split at h
    · cases h
    · obtain rfl := Option.some.inj h
      exact ⟨_, .guard, rfl⟩
  | guarded =>
    rw [hpc] at h
    obtain rfl := Option.some.inj h
    exact ⟨_, .clear, rfl⟩
  | cleared =>
    rw [hpc] at h
    obtain rfl := Option.some.inj h
    exact ⟨_, .advance, rfl⟩
  | advanced =>
    rw [hpc] at h
    obtain rfl := Option.some.inj h
    exact ⟨_, .release, rfl⟩
  | notifying =>
    rw [hpc] at h
    obtain rfl := Option.some.inj h
    exact ⟨_, .leave, rfl⟩

theorem of_step_call {timeout : Int} (h : w.step (.call t timeout) = some w') :
    w.pc t = .idle ∧ w'.sync = w.sync ∧
      w'.pc = Function.update w.pc t (.loaded w.sync.totalSyncRound timeout) := by
  rw [World.step] at h
  split at h
  · next hpc =>
    obtain rfl := Option.some.inj h
    exact ⟨hpc, rfl, rfl⟩
  · cases h

end World

/-- Where a party is in its meeting. -/
inductive Entry where
  | notYet
  | inside (pc : Pc)
  | left

namespace Entry

/-- A party that a step has moved. -/
def next : Pc → Entry
  | .idle => .left
  | pc => .inside pc

/-- The party does not count yet. -/
def Fresh (round : Int32) : Entry → Prop
  | .notYet => True
  | .inside (.loaded r _) => r = round
  | _ => False

/-- The party came first. -/
def First (round : Int32) : Entry → Prop
  | .inside (.counted r _ count) => r = round ∧ count = 1
  | .inside (.waiting r _) => r = round
  | _ => False

/-- The party came last. -/
def Last : Entry → Prop
  | .inside (.counted _ _ count) => count = 2
  | .inside .last => True
  | .inside .guarded => True
  | _ => False

def Cleared : Entry → Prop
  | .inside .cleared => True
  | _ => False

/-- The party has ended the round. -/
def Ending : Entry → Prop
  | .inside .advanced => True
  | .inside .notifying => True
  | .left => True
  | _ => False

/-- The party waits for the end of an open round. -/
def Waits (round : Int32) : Entry → Prop
  | .inside (.waiting r _) => r = round
  | _ => False

/-- The party will come to the end of a round that it completes. -/
def Comes : Entry → Prop
  | .notYet => True
  | .inside (.waiting _ _) => False
  | .inside _ => True
  | .left => False

variable {x : Entry} {round : Int32}

theorem Fresh.comes (h : x.Fresh round) : x.Comes := by
  cases x with
  | notYet => trivial
  | inside pc =>
    cases pc with
    | loaded => trivial
    | _ => cases h
  | left => cases h

theorem Last.comes (h : x.Last) : x.Comes := by
  cases x with
  | notYet => trivial
  | inside pc =>
    cases pc with
    | waiting => cases h
    | _ => trivial
  | left => cases h

theorem Cleared.comes (h : x.Cleared) : x.Comes := by
  cases x with
  | notYet => trivial
  | inside pc =>
    cases pc with
    | waiting => cases h
    | _ => trivial
  | left => cases h

theorem Waits.eq_waiting (h : x.Waits round) :
    ∃ timeout, x = .inside (.waiting round timeout) := by
  cases x with
  | notYet => cases h
  | inside pc =>
    cases pc with
    | waiting r timeout =>
      have hr : r = round := h
      exact ⟨timeout, by rw [hr]⟩
    | _ => cases h
  | left => cases h

end Entry

/-- A pair where the first one does not come after the other, at a count and a round. -/
inductive Meets (x y : Entry) (count round : Int32) : Prop
  | nobody (hx : x.Fresh round) (hy : y.Fresh round) (hcount : count = 0)
  | one (hx : x.First round) (hy : y.Fresh round) (hcount : count = 1)
  | both (hx : x.First round) (hy : y.Last) (hcount : count = 2)
  | cleared (hx : x.First round) (hy : y.Cleared) (hcount : count = 0)
  | roundOver (r : Int32) (hr : round = r + 1) (hx : x.First r ∨ x = .left) (hy : y.Ending)
      (hcount : count = 0)

/-- A pair in one of its two orders. -/
def Pair (x y : Entry) (count round : Int32) : Prop :=
  Meets x y count round ∨ Meets y x count round

namespace Meets

variable {x y : Entry} {s s' : Synchronizer} {pc pc' : Pc}

theorem first_or_fresh {count round : Int32} (h : Meets x y count round)
    (hfresh : ∀ r, ¬ x.Fresh r) (hfirst : ∀ r, ¬ x.First r) (hleft : x ≠ .left) : False := by
  cases h with
  | nobody hx => exact hfresh _ hx
  | one hx => exact hfirst _ hx
  | both hx => exact hfirst _ hx
  | cleared hx => exact hfirst _ hx
  | roundOver r hr hx => exact hx.elim (hfirst r) hleft

/-- A party that came first, or has not come yet, moves. -/
theorem move_left (h : Meets (.inside pc) y s.syncCount s.totalSyncRound)
    (hwanted : s.wantedCount = 2) (hmoves : Moves pc s pc' s') :
    Pair (Entry.next pc') y s'.syncCount s'.totalSyncRound := by
  cases hmoves with
  | count =>
    cases h with
    | nobody hx hy hcount =>
      have hone : s.syncCount + 1 = 1 := by rw [hcount]; rfl
      exact .inl (.one ⟨hx, hone⟩ hy hone)
    | one hx => cases hx
    | both hx => cases hx
    | cleared hx => cases hx
    | roundOver r hr hx => rcases hx with hx | hx <;> cases hx
  | complete hle =>
    -- The count that the first one has read is one.
    rw [hwanted] at hle
    have hlt : ∀ count : Int32, count = 1 → ¬ (2 : Int32) ≤ count := fun count hone => by
      rw [hone]
      decide
    cases h with
    | nobody hx => cases hx
    | one hx => exact absurd hle (hlt _ hx.2)
    | both hx => exact absurd hle (hlt _ hx.2)
    | cleared hx => exact absurd hle (hlt _ hx.2)
    | roundOver r hr hx =>
      rcases hx with hx | hx
      · exact absurd hle (hlt _ hx.2)
      · cases hx
  | wait =>
    cases h with
    | nobody hx => cases hx
    | one hx hy hcount => exact .inl (.one hx.1 hy hcount)
    | both hx hy hcount => exact .inl (.both hx.1 hy hcount)
    | cleared hx hy hcount => exact .inl (.cleared hx.1 hy hcount)
    | roundOver r hr hx hy hcount =>
      rcases hx with hx | hx
      · exact .inl (.roundOver r hr (.inl hx.1) hy hcount)
      · cases hx
  | wake hround =>
    cases h with
    | nobody hx => cases hx
    | one hx => exact absurd hx.symm hround
    | both hx => exact absurd hx.symm hround
    | cleared hx => exact absurd hx.symm hround
    | roundOver r hr hx hy hcount => exact .inl (.roundOver r hr (.inr rfl) hy hcount)
  | stay => exact .inl h
  | guard => exact (h.first_or_fresh (fun _ => id) (fun _ => id) nofun).elim
  | clear => exact (h.first_or_fresh (fun _ => id) (fun _ => id) nofun).elim
  | advance => exact (h.first_or_fresh (fun _ => id) (fun _ => id) nofun).elim
  | release => exact (h.first_or_fresh (fun _ => id) (fun _ => id) nofun).elim
  | leave => exact (h.first_or_fresh (fun _ => id) (fun _ => id) nofun).elim

/-- A party that came last, or has not come yet, moves. -/
theorem move_right (h : Meets x (.inside pc) s.syncCount s.totalSyncRound)
    (hwanted : s.wantedCount = 2) (hmoves : Moves pc s pc' s') :
    Pair x (Entry.next pc') s'.syncCount s'.totalSyncRound := by
  cases hmoves with
  | count =>
    cases h with
    | nobody hx hy hcount =>
      have hone : s.syncCount + 1 = 1 := by rw [hcount]; rfl
      exact .inr (.one ⟨hy, hone⟩ hx hone)
    | one hx hy hcount =>
      have htwo : s.syncCount + 1 = 2 := by rw [hcount]; rfl
      exact .inl (.both hx htwo htwo)
    | both hx hy => cases hy
    | cleared hx hy => cases hy
    | roundOver r hr hx hy => cases hy
  | complete =>
    cases h with
    | nobody hx hy => cases hy
    | one hx hy => cases hy
    | both hx hy hcount => exact .inl (.both hx trivial hcount)
    | cleared hx hy => cases hy
    | roundOver r hr hx hy => cases hy
  | wait hle =>
    cases h with
    | nobody hx hy => cases hy
    | one hx hy => cases hy
    | both hx hy =>
      have htwo : _ = (2 : Int32) := hy
      rw [hwanted, htwo] at hle
      exact absurd (by decide) hle
    | cleared hx hy => cases hy
    | roundOver r hr hx hy => cases hy
  | wake =>
    cases h with
    | nobody hx hy => cases hy
    | one hx hy => cases hy
    | both hx hy => cases hy
    | cleared hx hy => cases hy
    | roundOver r hr hx hy => cases hy
  | stay => exact .inl h
  | guard =>
    cases h with
    | nobody hx hy => cases hy
    | one hx hy => cases hy
    | both hx hy hcount => exact .inl (.both hx trivial hcount)
    | cleared hx hy => cases hy
    | roundOver r hr hx hy => cases hy
  | clear =>
    cases h with
    | nobody hx hy => cases hy
    | one hx hy => cases hy
    | both hx => exact .inl (.cleared hx trivial rfl)
    | cleared hx hy => cases hy
    | roundOver r hr hx hy => cases hy
  | advance =>
    cases h with
    | nobody hx hy => cases hy
    | one hx hy => cases hy
    | both hx hy => cases hy
    | cleared hx hy hcount => exact .inl (.roundOver _ rfl (.inl hx) trivial hcount)
    | roundOver r hr hx hy => cases hy
  | release =>
    cases h with
    | nobody hx hy => cases hy
    | one hx hy => cases hy
    | both hx hy => cases hy
    | cleared hx hy => cases hy
    | roundOver r hr hx hy hcount => exact .inl (.roundOver r hr hx trivial hcount)
  | leave =>
    cases h with
    | nobody hx hy => cases hy
    | one hx hy => cases hy
    | both hx hy => cases hy
    | cleared hx hy => cases hy
    | roundOver r hr hx hy hcount => exact .inl (.roundOver r hr hx trivial hcount)

end Meets

namespace Pair

variable {x y : Entry} {s s' : Synchronizer} {pc pc' : Pc} {count round : Int32}

theorem symm (h : Pair x y count round) : Pair y x count round := Or.symm h

/-- A step of a party keeps the pair. -/
theorem move (h : Pair (.inside pc) y s.syncCount s.totalSyncRound)
    (hwanted : s.wantedCount = 2) (hmoves : Moves pc s pc' s') :
    Pair (Entry.next pc') y s'.syncCount s'.totalSyncRound := by
  rcases h with h | h
  · exact h.move_left hwanted hmoves
  · exact (h.move_right hwanted hmoves).symm

theorem enter {timeout : Int} (h : Pair .notYet y count round) :
    Pair (.inside (.loaded round timeout)) y count round := by
  rcases h with h | h
  · cases h with
    | nobody hx hy hcount => exact .inl (.nobody rfl hy hcount)
    | one hx => cases hx
    | both hx => cases hx
    | cleared hx => cases hx
    | roundOver r hr hx => rcases hx with hx | hx <;> cases hx
  · cases h with
    | nobody hx hy hcount => exact .inr (.nobody hx rfl hcount)
    | one hx hy hcount => exact .inr (.one hx rfl hcount)
    | both hx hy => cases hy
    | cleared hx hy => cases hy
    | roundOver r hr hx hy => cases hy

/-- When one of them waits for the end of the round, the other one comes. -/
theorem comes_of_waits (h : Pair x y count round) (hx : x.Waits round) : y.Comes := by
  obtain ⟨timeout, rfl⟩ := hx.eq_waiting
  rcases h with h | h
  · cases h with
    | nobody hx => cases hx
    | one hx hy => exact hy.comes
    | both hx hy => exact hy.comes
    | cleared hx hy => exact hy.comes
    | roundOver r hr hx =>
      rcases hx with hx | hx
      · have hround : round = r := hx
        rw [hround] at hr
        grind
      · cases hx
  · cases h with
    | nobody hx hy => cases hy
    | one hx hy => cases hy
    | both hx hy => cases hy
    | cleared hx hy => cases hy
    | roundOver r hr hx hy => cases hy

/-- When one of them has left, the other one has come. -/
theorem ne_notYet_of_left (h : Pair .left y count round) : y ≠ .notYet := by
  rintro rfl
  rcases h with h | h
  · cases h with
    | nobody hx => cases hx
    | one hx => cases hx
    | both hx => cases hx
    | cleared hx => cases hx
    | roundOver r hr hx hy => cases hy
  · cases h with
    | nobody hx hy => cases hy
    | one hx hy => cases hy
    | both hx hy => cases hy
    | cleared hx hy => cases hy
    | roundOver r hr hx => rcases hx with hx | hx <;> cases hx

theorem count_of_left (h : Pair .left .left count round) : count = 0 := by
  have hcount : Meets .left .left count round → count = 0 := fun h => by
    cases h with
    | nobody hx => cases hx
    | one hx => cases hx
    | both hx => cases hx
    | cleared hx => cases hx
    | roundOver r hr hx hy hcount => exact hcount
  exact h.elim hcount hcount

end Pair

end Sihd.Util.Synchronizer
