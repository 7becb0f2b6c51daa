import Sihd.Sys.SigWatcher

/-!
# Runs of the signal watcher

The three containers denote the signals that are present, in every run. The dispositions are those
of these signals where each step is in order, and only there.
-/

namespace Sihd.Sys

open SigHandler (Handling destroyAll last restores destroyAll_apply mem_of_last last_eq_none_iff)

namespace SigWatcher.World

variable {system : Signals} {initial : Int → Disposition} {w w' : World} {sig : Int}
  {destroyed : List SigHandler}

/-- The containers denote the signals that are present. -/
structure Inv (system : Signals) (w : World) : Prop where
  handling : ∀ c ∈ w.sigControllers, Handling system c ∧ hasStatus c.sig = true
  signals : w.signals = w.sigControllers.map SigHandler.sig
  sigset : ∀ x, w.sigset x = true ↔ x ∈ w.signals
  present : ∀ x, w.present x = true ↔ x ∈ w.signals
  answered : w.answered = true

/-- The dispositions are those of the signals that are present. -/
def Installed (initial : Int → Disposition) (w : World) : Prop :=
  ∀ x, w.disposition x = if w.present x then .callback else initial x

theorem inv_init (initial : Int → Disposition) : (init initial).Inv system where
  handling _ hc := nomatch hc
  signals := rfl
  sigset _ := iff_of_false Bool.false_ne_true List.not_mem_nil
  present _ := iff_of_false Bool.false_ne_true List.not_mem_nil
  answered := rfl

theorem installed_init (initial : Int → Disposition) : (init initial).Installed initial :=
  fun _ => rfl

namespace Inv

theorem mem_signals_iff (h : w.Inv system) {x : Int} :
    x ∈ w.signals ↔ ∃ c ∈ w.sigControllers, c.sig = x := by
  rw [h.signals, List.mem_map]

theorem owned_iff (h : w.Inv system) : Owned initial w ↔ w.Installed initial :=
  ⟨fun howned => howned.dispositions,
    fun hinstalled => ⟨hinstalled, h.sigset, fun _ => h.mem_signals_iff.symm, h.answered⟩⟩

theorem withTodo (h : w.Inv system) (todo : Todo) (ret : Bool) :
    World.Inv system { w with todo := todo, ret := ret } :=
  ⟨h.handling, h.signals, h.sigset, h.present, h.answered⟩

theorem disposition_of_mem (h : w.Inv system) (hinstalled : w.Installed initial) {x : Int}
    (hx : x ∈ w.signals) : w.disposition x = .callback :=
  (hinstalled x).trans (if_pos ((h.present x).mpr hx))

theorem disposition_of_not_mem (h : w.Inv system) (hinstalled : w.Installed initial) {x : Int}
    (hx : x ∉ w.signals) : w.disposition x = initial x :=
  (hinstalled x).trans (if_neg fun hpresent => hx ((h.present x).mp hpresent))

/-! ### What is destroyed -/

theorem mem_of_last (h : w.Inv system) (hsub : ∀ c ∈ destroyed, c ∈ w.sigControllers) {x : Int}
    {c : SigHandler} (hlast : last destroyed x = some c) : x ∈ w.signals := by
  obtain ⟨hc, hsig⟩ := SigHandler.mem_of_last hlast
  exact h.mem_signals_iff.mpr ⟨c, hsub c hc, hsig⟩

theorem destroyAll_eq (h : w.Inv system) (hsub : ∀ c ∈ destroyed, c ∈ w.sigControllers) (x : Int) :
    destroyAll system w.disposition destroyed x =
      ((last destroyed x).bind restores).getD (w.disposition x) :=
  destroyAll_apply (fun c hc => (h.handling c (hsub c hc)).1) _ x

theorem destroyAll_of_last_eq_none (h : w.Inv system)
    (hsub : ∀ c ∈ destroyed, c ∈ w.sigControllers) {x : Int} (hlast : last destroyed x = none) :
    destroyAll system w.disposition destroyed x = w.disposition x := by
  rw [h.destroyAll_eq hsub, hlast, Option.bind_none, Option.getD_none]

theorem destroyAll_of_last_eq_some (h : w.Inv system)
    (hsub : ∀ c ∈ destroyed, c ∈ w.sigControllers) {x : Int} {c : SigHandler}
    (hlast : last destroyed x = some c) :
    c.restores = some (destroyAll system w.disposition destroyed x) := by
  have hc := (h.handling c (hsub c (SigHandler.mem_of_last hlast).1)).1
  obtain ⟨r, hr⟩ := Handling.restores c hc
  rw [h.destroyAll_eq hsub, hlast, Option.bind_some, hr, Option.getD_some]

/-- The handlers that are destroyed spare the other signals where they leave their dispositions as
these are. -/
theorem spares_iff (h : w.Inv system) (hinstalled : w.Installed initial)
    (hsub : ∀ c ∈ destroyed, c ∈ w.sigControllers) :
    Spares destroyed sig ↔
      ∀ x, x ≠ sig → destroyAll system w.disposition destroyed x = w.disposition x := by
  constructor
  · intro hspares x hx
    cases hlast : last destroyed x with
    | none => exact h.destroyAll_of_last_eq_none hsub hlast
    | some c =>
      rw [h.disposition_of_mem hinstalled (h.mem_of_last hsub hlast)]
      refine Option.some.inj ((h.destroyAll_of_last_eq_some hsub hlast).symm.trans ?_)
      exact hspares x c hx hlast
  · intro hsame x c hx hlast
    rw [h.destroyAll_of_last_eq_some hsub hlast, hsame x hx,
      h.disposition_of_mem hinstalled (h.mem_of_last hsub hlast)]

/-! ### Additions -/

theorem mem_update_iff {f : Int → Bool} {l : List Int} {x : Int} (h : f x = true ↔ x ∈ l) :
    Function.update f sig true x = true ↔ x ∈ l ++ [sig] := by
  rw [List.mem_append, List.mem_singleton]
  by_cases hx : x = sig
  · rw [hx, Function.update_self]
    exact iff_of_true rfl (.inr rfl)
  · rw [Function.update_of_ne hx, h, or_iff_left hx]

theorem not_mem_of_fails (h : w.Inv system)
    (hfails : ¬ (system.catchable sig && hasStatus sig) = true) : sig ∉ w.signals := by
  intro hmem
  obtain ⟨c, hc, rfl⟩ := h.mem_signals_iff.mp hmem
  obtain ⟨hhandling, hstatus⟩ := h.handling c hc
  exact hfails (by rw [hhandling.catchable, hstatus]; rfl)

/-- A handler that fails puts the disposition back as `std::signal` does, where it has installed
the callback. -/
theorem unhandle_fails (d : Int → Disposition) (x : Int) :
    (SigHandler.create.handle system d sig).1.unhandle system
        (SigHandler.create.handle system d sig).2.1 x =
      if x = sig ∧ system.catchable sig = true then (d sig).saHandler.disposition else d x := by
  change SigHandler.unhandle system (if system.catchable sig then Function.update d sig .callback
    else d) ⟨sig, if system.known sig then some (d sig).saHandler else none⟩ x = _
  by_cases hcatch : system.catchable sig = true
  · have hknown := system.known_of_catchable sig hcatch
    have hpos : 0 ≤ sig := Int.le_of_lt (system.pos sig hknown)
    rw [if_pos hcatch, if_pos hknown, SigHandler.unhandle]
    dsimp only
    rw [if_pos hpos, SigHandler.signal, if_pos hcatch, Function.update_idem]
    by_cases hx : x = sig
    · rw [if_pos ⟨hx, hcatch⟩, hx, Function.update_self]
    · rw [if_neg fun h => hx h.1, Function.update_of_ne hx]
  · rw [if_neg hcatch, SigHandler.unhandle_of_not_catchable hcatch]
    exact (if_neg fun h : x = sig ∧ _ => hcatch h.2).symm

theorem addSignal_succeeds (h : w.Inv system) (hinstalled : w.Installed initial)
    (hsub : ∀ c ∈ destroyed, c ∈ w.sigControllers) (hstatus : hasStatus sig = true) :
    (∀ x, Function.update (destroyAll system w.disposition destroyed) sig .callback x =
        if Function.update w.present sig true x then .callback else initial x) ↔
      AddsInOrder system initial sig destroyed := by
  rw [AddsInOrder, h.spares_iff hinstalled hsub, and_iff_left]
  · refine forall_congr' fun x => ?_
    by_cases hx : x = sig
    · subst hx
      rw [Function.update_self, Function.update_self]
      exact iff_of_true (if_pos rfl).symm fun hne => absurd rfl hne
    · rw [Function.update_of_ne hx, Function.update_of_ne hx, ← hinstalled x]
      exact ⟨fun heq _ => heq, fun heq => heq hx⟩
  · intro _ hnone
    rw [hstatus] at hnone
    cases hnone

theorem addSignal_fails (h : w.Inv system) (hinstalled : w.Installed initial)
    (hsub : ∀ c ∈ destroyed, c ∈ w.sigControllers)
    (hfails : ¬ (system.catchable sig && hasStatus sig) = true) :
    (∀ x, (if x = sig ∧ system.catchable sig = true then
          (destroyAll system w.disposition destroyed sig).saHandler.disposition
        else destroyAll system w.disposition destroyed x) =
        if w.present x then .callback else initial x) ↔
      AddsInOrder system initial sig destroyed := by
  have hnot := h.not_mem_of_fails hfails
  have hlast : last destroyed sig = none := by
    cases hc : last destroyed sig with
    | none => rfl
    | some c => exact absurd (h.mem_of_last hsub hc) hnot
  have hsig : destroyAll system w.disposition destroyed sig = initial sig := by
    rw [h.destroyAll_of_last_eq_none hsub hlast, h.disposition_of_not_mem hinstalled hnot]
  have hpresent : (if w.present sig then Disposition.callback else initial sig) = initial sig := by
    rw [← hinstalled sig, h.disposition_of_not_mem hinstalled hnot]
  rw [AddsInOrder, h.spares_iff hinstalled hsub, hsig]
  constructor
  · intro hall
    refine ⟨fun x hx => ?_, fun hcatch _ => ?_⟩
    · have hx' := hall x
      rwa [if_neg fun hsig : x = sig ∧ _ => hx hsig.1, ← hinstalled x] at hx'
    · have hx := hall sig
      rwa [if_pos ⟨rfl, hcatch⟩, hpresent] at hx
  · rintro ⟨hspares, hplain⟩ x
    by_cases hx : x = sig
    · subst hx
      by_cases hcatch : system.catchable x = true
      · rw [hcatch, Bool.true_and, Bool.not_eq_true] at hfails
        rw [if_pos ⟨rfl, hcatch⟩, hpresent]
        exact hplain hcatch hfails
      · rw [if_neg fun h : x = x ∧ _ => hcatch h.2, hsig, hpresent]
    · rw [if_neg fun h : x = sig ∧ _ => hx h.1, hspares x hx]
      exact hinstalled x

theorem addSignal (h : w.Inv system) (hstep : w.addSignal system sig destroyed = some w') :
    w'.Inv system ∧ (w.Installed initial →
      (w'.Installed initial ↔ AddsInOrder system initial sig destroyed)) := by
  rw [World.addSignal, Option.ite_none_right_eq_some] at hstep
  obtain ⟨hdestroyed, hstep⟩ := hstep
  have hsub : ∀ c ∈ destroyed, c ∈ w.sigControllers := by
    obtain rfl | hperm := hdestroyed
    · exact fun c hc => nomatch hc
    · exact fun c hc => (List.isPerm_iff.mp hperm).mem_iff.mp hc
  by_cases hsuccess : (system.catchable sig && hasStatus sig) = true
  · rw [Bool.and_eq_true] at hsuccess
    obtain ⟨hcatch, hstatus⟩ := hsuccess
    rw [SigHandler.handle_create_of_catchable hcatch] at hstep
    dsimp only at hstep
    rw [Bool.true_and, if_pos hstatus] at hstep
    cases hstep
    refine ⟨⟨fun c hc => ?_, ?_, fun x => ?_, fun x => ?_, h.answered⟩, fun hinstalled => ?_⟩
    · rw [List.mem_append, List.mem_singleton] at hc
      obtain hc | rfl := hc
      · exact h.handling c hc
      · exact ⟨⟨hcatch, _, rfl⟩, hstatus⟩
    · rw [List.map_append, ← h.signals]
      rfl
    · exact mem_update_iff (h.sigset x)
    · exact mem_update_iff (h.present x)
    · exact h.addSignal_succeeds hinstalled hsub hstatus
  · change (if system.catchable sig && hasStatus sig then _ else _) = _ at hstep
    rw [if_neg hsuccess] at hstep
    cases hstep
    refine ⟨⟨h.handling, h.signals, h.sigset, h.present, h.answered⟩, fun hinstalled => ?_⟩
    rw [← h.addSignal_fails hinstalled hsub hsuccess]
    refine forall_congr' fun x => ?_
    rw [← unhandle_fails (destroyAll system w.disposition destroyed) x]
    exact Iff.rfl

/-! ### Removals -/

theorem mem_kept_iff {c : SigHandler} : c ∈ w.kept sig ↔ c ∈ w.sigControllers ∧ c.sig ≠ sig := by
  rw [kept, List.mem_filter]
  exact and_congr_right fun _ => decide_eq_true_iff

theorem erased_eq_nil_iff (h : w.Inv system) : w.erased sig = [] ↔ sig ∉ w.signals := by
  rw [erased, List.drop_eq_nil_iff, h.mem_signals_iff]
  constructor
  · rintro hle ⟨c, hc, rfl⟩
    have hlength := List.length_filter_eq_length_iff.mp
      (Nat.le_antisymm (List.length_filter_le _ _) hle) c hc
    exact of_decide_eq_true hlength rfl
  · intro hnot
    have hkept : w.kept sig = w.sigControllers :=
      List.filter_eq_self.mpr fun c hc => decide_eq_true fun hsig => hnot ⟨c, hc, hsig⟩
    exact Nat.le_of_eq (congrArg List.length hkept).symm

theorem signals_kept (h : w.Inv system) :
    w.signals.filter (· ≠ sig) = (w.kept sig).map SigHandler.sig := by
  rw [h.signals, kept, List.filter_map]
  rfl

theorem filter_signals_of_not_mem {l : List Int} (h : sig ∉ l) : l.filter (· ≠ sig) = l :=
  List.filter_eq_self.mpr fun _ hx => decide_eq_true fun hsig => h (hsig ▸ hx)

theorem mem_update_false_iff {f : Int → Bool} {l : List Int} {x : Int} (h : f x = true ↔ x ∈ l) :
    Function.update f sig false x = true ↔ x ∈ l.filter (· ≠ sig) := by
  rw [List.mem_filter, decide_eq_true_iff]
  by_cases hx : x = sig
  · rw [hx, Function.update_self]
    exact iff_of_false Bool.false_ne_true fun h => h.2 rfl
  · rw [Function.update_of_ne hx, h, and_iff_left hx]

/-- What is found in the controllers is in the signals, and what is returned is whether the signal
was there. -/
theorem found_iff (h : w.Inv system) :
    (decide (w.erased sig ≠ []) && decide (sig ∈ w.signals)) = w.present sig := by
  rw [Bool.eq_iff_iff, Bool.and_eq_true, decide_eq_true_iff, decide_eq_true_iff, h.present, ne_eq,
    h.erased_eq_nil_iff, not_not, and_self]

theorem signals_found (h : w.Inv system) :
    (if decide (w.erased sig ≠ []) = true then w.signals.filter (· ≠ sig) else w.signals) =
      w.signals.filter (· ≠ sig) := by
  split
  · rfl
  · rename_i hfound
    rw [decide_eq_true_iff, not_not, h.erased_eq_nil_iff] at hfound
    exact (filter_signals_of_not_mem hfound).symm

theorem rmSignal_installed (h : w.Inv system) (hinstalled : w.Installed initial)
    (hperm : destroyed.Perm (w.erased sig)) :
    (∀ x, destroyAll system w.disposition destroyed x =
        if Function.update w.present sig false x then .callback else initial x) ↔
      w.RemovesInOrder initial sig destroyed := by
  have hsub : ∀ c ∈ destroyed, c ∈ w.sigControllers := fun c hc =>
    List.mem_of_mem_drop (hperm.mem_iff.mp hc)
  have hself : destroyAll system w.disposition destroyed sig = initial sig ↔
      (sig ∈ w.signals → ((last destroyed sig).bind restores).getD .callback = initial sig) := by
    rw [h.destroyAll_eq hsub]
    by_cases hmem : sig ∈ w.signals
    · rw [h.disposition_of_mem hinstalled hmem, imp_iff_right hmem]
    · rw [h.erased_eq_nil_iff.mpr hmem, List.perm_nil] at hperm
      subst hperm
      exact iff_of_true (h.disposition_of_not_mem hinstalled hmem) fun hmem' => absurd hmem' hmem
  rw [RemovesInOrder, h.spares_iff hinstalled hsub, ← hself]
  constructor
  · intro hall
    refine ⟨fun x hx => ?_, ?_⟩
    · have hx' := hall x
      rwa [Function.update_of_ne hx, ← hinstalled x] at hx'
    · have hsig := hall sig
      rwa [Function.update_self, if_neg Bool.false_ne_true] at hsig
  · rintro ⟨hspares, hrestored⟩ x
    by_cases hx : x = sig
    · rw [hx, Function.update_self, if_neg Bool.false_ne_true, hrestored]
    · rw [Function.update_of_ne hx, ← hinstalled x, hspares x hx]

theorem rmSignal (h : w.Inv system) (hstep : w.rmSignal system sig destroyed = some w') :
    w'.Inv system ∧ (w.Installed initial →
      (w'.Installed initial ↔ w.RemovesInOrder initial sig destroyed)) := by
  rw [World.rmSignal, Option.ite_none_right_eq_some] at hstep
  obtain ⟨hperm, hstep⟩ := hstep
  cases hstep
  refine ⟨⟨fun c hc => h.handling c (mem_kept_iff.mp hc).1, ?_, fun x => ?_, fun x => ?_, ?_⟩,
    fun hinstalled => h.rmSignal_installed hinstalled (List.isPerm_iff.mp hperm)⟩
  · exact h.signals_found.trans h.signals_kept
  · dsimp only
    rw [h.signals_found]
    exact mem_update_false_iff (h.sigset x)
  · dsimp only
    rw [h.signals_found]
    exact mem_update_false_iff (h.present x)
  · dsimp only
    rw [h.found_iff, h.answered, beq_self_eq_true, Bool.true_and]

/-! ### Steps -/

theorem next (h : w.Inv system) (hstep : w.next system destroyed = some w') :
    w'.Inv system ∧ (w.Installed initial →
      (w'.Installed initial ↔ InOrder system initial w (.next destroyed))) := by
  rw [World.next] at hstep
  rw [InOrder]
  split at hstep
  · cases hstep
  · rename_i htodo
    cases hstep
    rw [htodo]
    exact ⟨h.withTodo _ _, fun hinstalled => iff_of_true hinstalled trivial⟩
  · rename_i htodo
    cases hstep
    rw [htodo]
    exact ⟨h.withTodo _ _, fun hinstalled => iff_of_true hinstalled trivial⟩
  · rename_i sig sigs htodo
    obtain ⟨v, hv, rfl⟩ := Option.map_eq_some_iff.mp hstep
    rw [htodo]
    obtain ⟨hinv, hiff⟩ := h.addSignal hv
    exact ⟨hinv.withTodo _ _, hiff⟩
  · rename_i sig sigs htodo
    obtain ⟨v, hv, rfl⟩ := Option.map_eq_some_iff.mp hstep
    rw [htodo]
    obtain ⟨hinv, hiff⟩ := h.rmSignal hv
    exact ⟨hinv.withTodo _ _, hiff⟩

theorem destroy (h : w.Inv system) (hstep : w.destroy system destroyed = some w') :
    w'.Inv system ∧ (w.Installed initial →
      (w'.Installed initial ↔ InOrder system initial w (.destroy destroyed))) := by
  rw [World.destroy, Option.ite_none_right_eq_some] at hstep
  obtain ⟨hperm, hstep⟩ := hstep
  have hperm := List.isPerm_iff.mp hperm
  have hsub : ∀ c ∈ destroyed, c ∈ w.sigControllers := fun c hc => hperm.mem_iff.mp hc
  cases hstep
  refine ⟨⟨fun c hc => (nomatch hc), rfl, fun x => ?_, fun x => ?_, h.answered⟩,
    fun hinstalled => ?_⟩
  · exact iff_of_false Bool.false_ne_true List.not_mem_nil
  · exact iff_of_false Bool.false_ne_true List.not_mem_nil
  · change (∀ x, destroyAll system w.disposition destroyed x = initial x) ↔
      ∀ x c, last destroyed x = some c → c.restores = some (initial x)
    refine forall_congr' fun x => ?_
    cases hlast : last destroyed x with
    | none =>
      refine iff_of_true ?_ fun c hc => (nomatch hc)
      rw [h.destroyAll_of_last_eq_none hsub hlast]
      refine h.disposition_of_not_mem hinstalled fun hmem => ?_
      obtain ⟨c, hc, hsig⟩ := h.mem_signals_iff.mp hmem
      exact last_eq_none_iff.mp hlast c (hperm.mem_iff.mpr hc) hsig
    | some c =>
      rw [← Option.some.injEq, ← h.destroyAll_of_last_eq_some hsub hlast]
      constructor
      · rintro heq c' hc'
        obtain rfl := Option.some.inj hc'
        exact heq
      · exact fun hall => hall c rfl

/-- What one step keeps, and when the dispositions are right after it. -/
theorem step (h : w.Inv system) {m : Move} (hstep : w.step system m = some w') :
    w'.Inv system ∧ (w.Installed initial →
      (w'.Installed initial ↔ InOrder system initial w m)) := by
  cases m with
  | next destroyed => exact h.next hstep
  | addSignal sig destroyed => exact h.addSignal (Option.ite_none_right_eq_some.mp hstep).2
  | rmSignal sig destroyed => exact h.rmSignal (Option.ite_none_right_eq_some.mp hstep).2
  | destroy destroyed => exact h.destroy (Option.ite_none_right_eq_some.mp hstep).2
  | addSignals sigs =>
    obtain ⟨-, heq⟩ := Option.ite_none_right_eq_some.mp hstep
    cases heq
    exact ⟨h.withTodo _ _, fun hinstalled => iff_of_true hinstalled trivial⟩
  | rmSignals sigs =>
    obtain ⟨-, heq⟩ := Option.ite_none_right_eq_some.mp hstep
    cases heq
    exact ⟨h.withTodo _ _, fun hinstalled => iff_of_true hinstalled trivial⟩

end Inv

/-- The watcher owns its signals all along a run where each of its steps is in order, and in no
other run. -/
theorem owned_iff_inOrder (system : Signals) (initial : Int → Disposition) (moves : List Move) :
    Transition.Along (step system) (fun _ _ w' => Owned initial w') (init initial) moves ↔
      Transition.Along (step system) (fun w m _ => InOrder system initial w m) (init initial)
        moves := by
  refine Transition.along_iff (I := fun w => w.Inv system ∧ w.Installed initial)
    (P := fun _ => True) ?_ ?_ ⟨inv_init initial, installed_init initial⟩ fun _ _ => trivial
  · intro w m w' _ ⟨hinv, _⟩ hstep howned
    have hkept : w'.Inv system ∧ (w.Installed initial → _) := hinv.step hstep
    exact ⟨hkept.1, howned.dispositions⟩
  · intro w m w' _ ⟨hinv, hinstalled⟩ hstep
    have hkept : w'.Inv system ∧ (w.Installed initial →
        (w'.Installed initial ↔ InOrder system initial w m)) := hinv.step hstep
    rw [hkept.1.owned_iff]
    exact hkept.2 hinstalled

/-- `SIGTERM` is added after `SIGINT`. The vector grows, and `SIGINT` has no handler. -/
theorem not_owned_grown : ¬ ∀ (system : Signals) (initial : Int → Disposition)
    (moves : List Move),
    Transition.Along (step system) (fun _ _ w' => Owned initial w') (init initial) moves := by
  intro h
  obtain ⟨-, hgrown⟩ := h .linux (fun _ => .default)
    [.addSignal 2 [], .addSignal 15 [⟨2, some .sigDfl⟩]] _ rfl
  obtain ⟨howned, -⟩ := hgrown _ rfl
  exact absurd (howned.dispositions 2) (by decide)

end SigWatcher.World

end Sihd.Sys
