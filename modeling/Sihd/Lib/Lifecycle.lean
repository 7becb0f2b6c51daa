import Mathlib.Data.List.Basic
import Mathlib.Logic.Function.Basic
import Mathlib.Tactic.Common

/-!
# Objects with phases

A log has events, each about one object or about none. `next` is what an event does to the phase
of its object, and `none` where the event must not happen. An object has a phase after a log when
every event about it was allowed.

Objects are held at places, each at one place at most. `Held` says that the held objects are in
the phases of their places and that every other object is in the first phase: its life has not
begun, or it is over.
-/

structure Lifecycle (ε ω φ : Type*) where
  subject : ε → Option ω
  init : φ
  next : φ → ε → Option φ

namespace Lifecycle

variable {ε ω φ κ : Type*} [DecidableEq ω] {L : Lifecycle ε ω φ} {log events : List ε}
  {e : ε} {o : ω} {p q r : φ}

/-- The events about an object. -/
def about (L : Lifecycle ε ω φ) (o : ω) (log : List ε) : List ε :=
  log.filter fun e => L.subject e = some o

/-- Where the events about an object take it. -/
def phaseAfter (L : Lifecycle ε ω φ) (o : ω) (log : List ε) : Option φ :=
  (L.about o log).foldlM L.next L.init

theorem about_append (o : ω) (log events : List ε) :
    L.about o (log ++ events) = L.about o log ++ L.about o events := List.filter_append ..

theorem phaseAfter_append (o : ω) (log events : List ε) :
    L.phaseAfter o (log ++ events) =
      (L.phaseAfter o log).bind fun p => (L.about o events).foldlM L.next p := by
  rw [phaseAfter, about_append, List.foldlM_append]
  rfl

/-- Events about one object, or about none, that take the object from a phase to another. -/
structure Takes (L : Lifecycle ε ω φ) (o : ω) (events : List ε) (p q : φ) : Prop where
  run : (L.about o events).foldlM L.next p = some q
  others : ∀ o', o' ≠ o → L.about o' events = []

namespace Takes

theorem nil : L.Takes o [] p p := ⟨rfl, fun _ _ => rfl⟩

theorem cons (hsubject : L.subject e = some o) (hnext : L.next p e = some q)
    (h : L.Takes o events q r) : L.Takes o (e :: events) p r where
  run := by
    rw [about, List.filter_cons_of_pos (by simpa using hsubject), List.foldlM_cons, hnext]
    exact h.run
  others o' ho' := by
    rw [about, List.filter_cons_of_neg (by simpa [hsubject] using ho'.symm)]
    exact h.others o' ho'

/-- An event about no object. -/
theorem skip (hsubject : L.subject e = none) (h : L.Takes o events p q) :
    L.Takes o (e :: events) p q where
  run := by
    rw [about, List.filter_cons_of_neg (by simp [hsubject])]
    exact h.run
  others o' ho' := by
    rw [about, List.filter_cons_of_neg (by simp [hsubject])]
    exact h.others o' ho'

theorem phaseAfter_self (h : L.Takes o events p q) (hp : L.phaseAfter o log = some p) :
    L.phaseAfter o (log ++ events) = some q := by
  rw [phaseAfter_append, hp, Option.bind_some, h.run]

theorem phaseAfter_of_ne (h : L.Takes o events p q) {o' : ω} (ho' : o' ≠ o) :
    L.phaseAfter o' (log ++ events) = L.phaseAfter o' log := by
  rw [phaseAfter, about_append, h.others o' ho', List.append_nil, phaseAfter]

end Takes

/-- Every object held at a place is in the phase of the place, and at no other place. -/
structure Held (L : Lifecycle ε ω φ) (log : List ε) (held : κ → Option ω) (phase : κ → φ) :
    Prop where
  unique : ∀ k k' o, held k = some o → held k' = some o → k = k'
  phase_of_held : ∀ k o, held k = some o → L.phaseAfter o log = some (phase k)
  phase_of_free : ∀ o, (∀ k, held k ≠ some o) → L.phaseAfter o log = some L.init

namespace Held

variable {held held' : κ → Option ω} {phase phase' : κ → φ} {k : κ}

theorem nil (L : Lifecycle ε ω φ) (phase : κ → φ) : L.Held [] (fun _ => none) phase where
  unique _ _ _ h := absurd h.symm (Option.some_ne_none _)
  phase_of_held _ _ h := absurd h.symm (Option.some_ne_none _)
  phase_of_free _ _ := rfl

theorem congr (h : L.Held log held phase) (hheld : ∀ k, held' k = held k)
    (hphase : ∀ k o, held k = some o → phase' k = phase k) : L.Held log held' phase' := by
  obtain rfl : held' = held := funext hheld
  refine ⟨h.unique, fun k o hk => ?_, h.phase_of_free⟩
  rw [hphase k o hk]
  exact h.phase_of_held k o hk

/-- Events about no object. -/
theorem idle (h : L.Held log held phase) (hevents : ∀ e ∈ events, L.subject e = none) :
    L.Held (log ++ events) held phase := by
  have hsame : ∀ o, L.phaseAfter o (log ++ events) = L.phaseAfter o log := fun o => by
    have hnone : L.about o events = [] :=
      List.filter_eq_nil_iff.mpr fun e he => by simp [hevents e he]
    rw [phaseAfter, about_append, hnone, List.append_nil, phaseAfter]
  refine ⟨h.unique, fun k o hk => ?_, fun o ho => ?_⟩
  · rw [hsame, h.phase_of_held k o hk]
  · rw [hsame, h.phase_of_free o ho]

/-- Events about one object. What is held elsewhere stays as it is. -/
theorem change (h : L.Held log held phase) (ht : L.Takes o events p q)
    (hp : L.phaseAfter o log = some p)
    (hother : ∀ k o', o' ≠ o → (held' k = some o' ↔ held k = some o'))
    (hphase : ∀ k o', o' ≠ o → held k = some o' → phase' k = phase k)
    (hunique : ∀ k k', held' k = some o → held' k' = some o → k = k')
    (hself : ∀ k, held' k = some o → phase' k = q)
    (hfree : (∀ k, held' k ≠ some o) → q = L.init) : L.Held (log ++ events) held' phase' := by
  refine ⟨fun k k' o' hk hk' => ?_, fun k o' hk => ?_, fun o' ho' => ?_⟩
  · by_cases heq : o' = o
    · exact hunique k k' (heq ▸ hk) (heq ▸ hk')
    · exact h.unique k k' o' ((hother k o' heq).mp hk) ((hother k' o' heq).mp hk')
  · by_cases heq : o' = o
    · rw [heq, hself k (heq ▸ hk)]
      exact ht.phaseAfter_self hp
    · have hheld := (hother k o' heq).mp hk
      rw [ht.phaseAfter_of_ne heq, hphase k o' heq hheld, h.phase_of_held k o' hheld]
  · by_cases heq : o' = o
    · rw [heq, ← hfree (heq ▸ ho')]
      exact ht.phaseAfter_self hp
    · rw [ht.phaseAfter_of_ne heq]
      exact h.phase_of_free o' fun k hk => ho' k ((hother k o' heq).mpr hk)

/-- The life of an object that is held nowhere begins and ends. -/
theorem pass (h : L.Held log held phase) (hfree : ∀ k, held k ≠ some o)
    (ht : L.Takes o events L.init L.init) : L.Held (log ++ events) held phase :=
  h.change ht (h.phase_of_free o hfree) (fun _ _ _ => Iff.rfl) (fun _ _ _ _ => rfl)
    (fun k _ hk => absurd hk (hfree k)) (fun k hk => absurd hk (hfree k)) fun _ => rfl

/-- An object does something in its phase. -/
theorem stay (h : L.Held log held phase) (hk : held k = some o)
    (ht : L.Takes o events (phase k) (phase k)) : L.Held (log ++ events) held phase :=
  h.change ht (h.phase_of_held k o hk) (fun _ _ _ => Iff.rfl) (fun _ _ _ _ => rfl)
    (fun k₁ k₂ => h.unique k₁ k₂ o) (fun k' hk' => congrArg phase (h.unique k' k o hk' hk))
    fun hfree => absurd hk (hfree k)

/-- Events that the held objects may take where they are. -/
theorem stayAll (h : L.Held log held phase)
    (hevents : ∀ e ∈ events, ∀ o, L.subject e = some o →
      ∃ k, held k = some o ∧ L.next (phase k) e = some (phase k)) :
    L.Held (log ++ events) held phase := by
  induction events generalizing log with
  | nil => rwa [List.append_nil]
  | cons e events ih =>
    rw [List.forall_mem_cons] at hevents
    rw [List.append_cons]
    refine ih ?_ hevents.2
    cases hsubject : L.subject e with
    | none => exact h.idle (List.forall_mem_singleton.mpr hsubject)
    | some o =>
      obtain ⟨k, hk, hnext⟩ := hevents.1 o hsubject
      exact h.stay hk (.cons hsubject hnext .nil)

variable [DecidableEq κ]

/-- An object goes to another phase where it is. -/
theorem move (h : L.Held log held phase) (hk : held k = some o)
    (ht : L.Takes o events (phase k) q) :
    L.Held (log ++ events) held (Function.update phase k q) := by
  refine h.change ht (h.phase_of_held k o hk) (fun _ _ _ => Iff.rfl) (fun k' o' ho' hk' => ?_)
    (fun k₁ k₂ => h.unique k₁ k₂ o) (fun k' hk' => ?_) fun hfree => absurd hk (hfree k)
  · exact Function.update_of_ne (fun heq => ho' (Option.some.inj ((heq ▸ hk').symm.trans hk))) ..
  · rw [h.unique k' k o hk' hk, Function.update_self]

/-- The life of an object ends, and its place is free. -/
theorem release (h : L.Held log held phase) (hk : held k = some o)
    (ht : L.Takes o events (phase k) L.init) :
    L.Held (log ++ events) (Function.update held k none) phase := by
  have hnone : ∀ k', Function.update held k none k' ≠ some o := fun k' hk' => by
    by_cases heq : k' = k
    · simp [heq] at hk'
    · rw [Function.update_of_ne heq] at hk'
      exact heq (h.unique k' k o hk' hk)
  refine h.change ht (h.phase_of_held k o hk) (fun k' o' ho' => ?_) (fun _ _ _ _ => rfl)
    (fun k₁ _ hk₁ => absurd hk₁ (hnone k₁)) (fun k' hk' => absurd hk' (hnone k')) fun _ => rfl
  by_cases heq : k' = k
  · rw [heq, Function.update_self, hk]
    exact iff_of_false (Option.some_ne_none o').symm fun ho => ho' (Option.some.inj ho).symm
  · rw [Function.update_of_ne heq]

/-- The life of an object begins at a place that was free. -/
theorem take (h : L.Held log held phase) (hfree : ∀ k, held k ≠ some o) (hk : held k = none)
    (ht : L.Takes o events L.init q) :
    L.Held (log ++ events) (Function.update held k (some o)) (Function.update phase k q) := by
  have hplace : ∀ k', Function.update held k (some o) k' = some o → k' = k := fun k' hk' => by
    by_contra heq
    rw [Function.update_of_ne heq] at hk'
    exact hfree k' hk'
  refine h.change ht (h.phase_of_free o hfree) (fun k' o' ho' => ?_) (fun k' o' _ hk' => ?_)
    (fun k₁ k₂ hk₁ hk₂ => (hplace k₁ hk₁).trans (hplace k₂ hk₂).symm) (fun k' hk' => ?_)
    fun hnone => absurd (Function.update_self ..) (hnone k)
  · by_cases heq : k' = k
    · rw [heq, Function.update_self, hk]
      exact iff_of_false (fun ho => ho' (Option.some.inj ho).symm) (Option.some_ne_none o').symm
    · rw [Function.update_of_ne heq]
  · refine Function.update_of_ne (fun heq => ?_) ..
    rw [heq, hk] at hk'
    exact Option.some_ne_none o' hk'.symm
  · rw [hplace k' hk', Function.update_self]

/-- The objects of many places, each one once, go to other phases one after the other. -/
theorem moveAll {ks : List κ} {es : κ → List ε} (h : L.Held log held phase) (hks : ks.Nodup)
    (hnone : ∀ k ∈ ks, held k = none → es k = [])
    (hsome : ∀ k ∈ ks, ∀ o, held k = some o → L.Takes o (es k) (phase k) (phase' k))
    (hout : ∀ k, k ∉ ks → phase' k = phase k) : L.Held (log ++ ks.flatMap es) held phase' := by
  induction ks generalizing log phase with
  | nil =>
    rw [List.flatMap_nil, List.append_nil]
    exact h.congr (fun _ => rfl) fun k _ _ => hout k List.not_mem_nil
  | cons k ks ih =>
    rw [List.nodup_cons] at hks
    have hfirst : L.Held (log ++ es k) held (Function.update phase k (phase' k)) := by
      cases hk : held k with
      | some o => exact h.move hk (hsome k List.mem_cons_self o hk)
      | none =>
        rw [hnone k List.mem_cons_self hk, List.append_nil]
        refine h.congr (fun _ => rfl) fun k' o hk' => Function.update_of_ne (fun heq => ?_) _ _
        rw [heq, hk] at hk'
        exact Option.some_ne_none o hk'.symm
    rw [List.flatMap_cons, ← List.append_assoc]
    refine ih hfirst hks.2 (fun k' hk' => hnone k' (List.mem_cons_of_mem _ hk'))
      (fun k' hk' o ho => ?_) fun k' hk' => ?_
    · rw [Function.update_of_ne (ne_of_mem_of_not_mem hk' hks.1)]
      exact hsome k' (List.mem_cons_of_mem _ hk') o ho
    · by_cases heq : k' = k
      · rw [heq, Function.update_self]
      · rw [Function.update_of_ne heq]
        exact hout k' (List.not_mem_cons_of_ne_of_not_mem heq hk')

/-- The objects of many places, each one once, end their lives one after the other. -/
theorem releaseAll {ks : List κ} {es : κ → List ε} (h : L.Held log held phase) (hks : ks.Nodup)
    (hnone : ∀ k ∈ ks, held k = none → es k = [])
    (hsome : ∀ k ∈ ks, ∀ o, held k = some o → L.Takes o (es k) (phase k) L.init)
    (hin : ∀ k ∈ ks, held' k = none) (hout : ∀ k, k ∉ ks → held' k = held k) :
    L.Held (log ++ ks.flatMap es) held' phase := by
  induction ks generalizing log held with
  | nil =>
    rw [List.flatMap_nil, List.append_nil]
    exact h.congr (fun k => hout k List.not_mem_nil) fun _ _ _ => rfl
  | cons k ks ih =>
    rw [List.nodup_cons] at hks
    have hupdate : ∀ k' ∈ ks, Function.update held k none k' = held k' := fun k' hk' =>
      Function.update_of_ne (ne_of_mem_of_not_mem hk' hks.1) _ _
    have hfirst : L.Held (log ++ es k) (Function.update held k none) phase := by
      cases hk : held k with
      | some o => exact h.release hk (hsome k List.mem_cons_self o hk)
      | none =>
        rw [hnone k List.mem_cons_self hk, List.append_nil, ← hk, Function.update_eq_self]
        exact h
    rw [List.flatMap_cons, ← List.append_assoc]
    refine ih hfirst hks.2
      (fun k' hk' hnone' => hnone k' (List.mem_cons_of_mem _ hk') (hupdate k' hk' ▸ hnone'))
      (fun k' hk' o ho => hsome k' (List.mem_cons_of_mem _ hk') o (hupdate k' hk' ▸ ho))
      (fun k' hk' => hin k' (List.mem_cons_of_mem _ hk')) fun k' hk' => ?_
    by_cases heq : k' = k
    · rw [heq, Function.update_self]
      exact hin k List.mem_cons_self
    · rw [Function.update_of_ne heq]
      exact hout k' (List.not_mem_cons_of_ne_of_not_mem heq hk')

end Held

end Lifecycle
