import Mathlib.Logic.Function.Basic
import Mathlib.Logic.Basic
import Mathlib.Data.Option.Basic

/-!
# Runs of a labelled transition system

A system is a partial step function `step : σ → α → Option σ`: the label names
who moves and `none` says that the move is not enabled. `Reaches step allowed
init` is the set of states that a run reaches from an initial state when every
step of the run meets `allowed`, a condition on the state before the step and
on its label. A property of every run is proved by `Reaches.invariant`: it
holds initially and every allowed step keeps it.

`runs` executes a list of labels, so that a run given as a list can be
evaluated; `Reaches.of_runs` and `Reaches.of_runs_guarded` turn an evaluated
run into a reached state.
-/

namespace Transition

variable {σ α : Type*}

/-- The states reached from a state of `init` by steps that all meet
`allowed`. -/
inductive Reaches (step : σ → α → Option σ) (allowed : σ → α → Prop)
    (init : σ → Prop) : σ → Prop
  | start {s : σ} (hinit : init s) : Reaches step allowed init s
  | next {s s' : σ} {a : α} (hreach : Reaches step allowed init s)
      (hallowed : allowed s a) (hstep : step s a = some s') :
      Reaches step allowed init s'

/-- Every label is allowed in every state. -/
def unrestricted (_ : σ) (_ : α) : Prop := True

/-- Run the labels one after the other; `none` as soon as one is not
enabled. -/
def runs (step : σ → α → Option σ) : σ → List α → Option σ
  | s, [] => some s
  | s, a :: as => (step s a).bind fun s' => runs step s' as

/-- The steps of `step` that the test `p` lets through. -/
def guarded (step : σ → α → Option σ) (p : σ → α → Bool) (s : σ) (a : α) :
    Option σ :=
  if p s a then step s a else none

@[simp] theorem runs_nil (step : σ → α → Option σ) (s : σ) :
    runs step s [] = some s := rfl

theorem runs_cons (step : σ → α → Option σ) (s : σ) (a : α) (as : List α) :
    runs step s (a :: as) = (step s a).bind fun s' => runs step s' as := rfl

theorem runs_append (step : σ → α → Option σ) (s : σ) (as bs : List α) :
    runs step s (as ++ bs) = (runs step s as).bind fun s' => runs step s' bs := by
  induction as generalizing s with
  | nil => rfl
  | cons a as ih =>
      rw [List.cons_append, runs_cons, runs_cons, Option.bind_assoc]
      exact Option.bind_congr fun s' _ => ih s'

/-- A run is the run of its first labels, one more step and the run of the
others. -/
theorem runs_append_cons_eq_some_iff {step : σ → α → Option σ} {s t : σ} {as bs : List α}
    {a : α} : runs step s (as ++ a :: bs) = some t ↔
      ∃ m m', runs step s as = some m ∧ step m a = some m' ∧ runs step m' bs = some t := by
  rw [runs_append, Option.bind_eq_some_iff]
  constructor
  · rintro ⟨m, hm, h⟩
    rw [runs_cons, Option.bind_eq_some_iff] at h
    obtain ⟨m', hstep, hrest⟩ := h
    exact ⟨m, m', hm, hstep, hrest⟩
  · rintro ⟨m, m', hm, hstep, hrest⟩
    refine ⟨m, hm, ?_⟩
    rw [runs_cons, hstep]
    exact hrest

/-- The invariant rule for a run of labels: what holds before the run and is kept
by each of its steps holds after it. -/
theorem invariant_of_runs {step : σ → α → Option σ} {I : σ → Prop} {as : List α}
    (hkeep : ∀ a ∈ as, ∀ s s', I s → step s a = some s' → I s') {s t : σ} (hs : I s)
    (h : runs step s as = some t) : I t := by
  induction as generalizing s with
  | nil =>
      rw [runs_nil, Option.some.injEq] at h
      exact h ▸ hs
  | cons a as ih =>
      rw [runs_cons, Option.bind_eq_some_iff] at h
      obtain ⟨m, hstep, hrest⟩ := h
      rw [List.forall_mem_cons] at hkeep
      exact ih hkeep.2 (hkeep.1 s m hs hstep) hrest

/-- The rank rule: where a rank falls with each step of some labels and rises with no other, it
bounds the number of such steps in a run to a live state. What is live now was live before. -/
theorem countP_add_rank_le {step : σ → α → Option σ} {I live : σ → Prop} {rank : σ → Nat}
    {p : α → Bool} (hkeep : ∀ s a s', I s → step s a = some s' → I s')
    (hfall : ∀ s a s', I s → step s a = some s' → live s' →
      live s ∧ rank s' + (if p a then 1 else 0) ≤ rank s) {as : List α} {s t : σ} (hs : I s)
    (h : runs step s as = some t) (ht : live t) :
    live s ∧ as.countP p + rank t ≤ rank s := by
  induction as generalizing s with
  | nil =>
      rw [runs_nil, Option.some.injEq] at h
      subst h
      exact ⟨ht, by simp⟩
  | cons a as ih =>
      rw [runs_cons, Option.bind_eq_some_iff] at h
      obtain ⟨m, hstep, hrest⟩ := h
      obtain ⟨hm, hle⟩ := ih (hkeep s a m hs hstep) hrest
      obtain ⟨hlive, hfalls⟩ := hfall s a m hs hstep hm
      refine ⟨hlive, ?_⟩
      rw [List.countP_cons]
      calc as.countP p + (if p a then 1 else 0) + rank t
          = as.countP p + rank t + (if p a then 1 else 0) := Nat.add_right_comm _ _ _
        _ ≤ rank m + (if p a then 1 else 0) := Nat.add_le_add_right hle _
        _ ≤ rank s := hfalls

/-- Every step of the run of the labels is one of `R`. -/
def Along (step : σ → α → Option σ) (R : σ → α → σ → Prop) : σ → List α → Prop
  | _, [] => True
  | s, a :: as => ∀ s', step s a = some s' → R s a s' ∧ Along step R s' as

/-- Two kinds of steps that are the same where an invariant holds are the same
along the runs from there, when such steps keep the invariant. -/
theorem along_iff {step : σ → α → Option σ} {I : σ → Prop} {R Q : σ → α → σ → Prop}
    {P : α → Prop}
    (hkeep : ∀ s a s', P a → I s → step s a = some s' → R s a s' → I s')
    (hiff : ∀ s a s', P a → I s → step s a = some s' → (R s a s' ↔ Q s a s')) {s : σ}
    (hs : I s) {as : List α} (has : ∀ a ∈ as, P a) :
    Along step R s as ↔ Along step Q s as := by
  induction as generalizing s with
  | nil => exact Iff.rfl
  | cons a as ih =>
      rw [List.forall_mem_cons] at has
      refine forall_congr' fun s' => forall_congr' fun hstep => ?_
      rw [← hiff s a s' has.1 hs hstep]
      exact and_congr_right fun hR => ih (hkeep s a s' has.1 hs hstep hR) has.2

/-- Steps of one kind that keep an invariant are of another kind where that holds. -/
theorem Along.imp_of_invariant {step : σ → α → Option σ} {I : σ → Prop}
    {R Q : σ → α → σ → Prop} {s : σ} {as : List α} (h : Along step R s as) (hs : I s)
    (himp : ∀ s a s', I s → step s a = some s' → R s a s' → Q s a s' ∧ I s') :
    Along step Q s as := by
  induction as generalizing s with
  | nil => exact trivial
  | cons a as ih =>
      intro s' hstep
      obtain ⟨hR, hrest⟩ := h s' hstep
      obtain ⟨hQ, hs'⟩ := himp s a s' hs hstep hR
      exact ⟨hQ, ih hrest hs'⟩

/-- A run along such steps has one of them wherever it goes. -/
theorem Along.of_runs {step : σ → α → Option σ} {R : σ → α → σ → Prop} {as : List α}
    {a : α} {bs : List α} {s m t : σ} (h : Along step R s (as ++ a :: bs))
    (hrun : runs step s as = some m) (hstep : step m a = some t) : R m a t := by
  induction as generalizing s with
  | nil =>
      rw [runs_nil, Option.some.injEq] at hrun
      subst hrun
      exact (h t hstep).1
  | cons b as ih =>
      rw [runs_cons, Option.bind_eq_some_iff] at hrun
      obtain ⟨s', hs', hrest⟩ := hrun
      exact ih (h s' hs').2 hrest

theorem Along.and_forall {step : σ → α → Option σ} {R : σ → α → σ → Prop} {P : α → Prop}
    {s : σ} {as : List α} (h : Along step R s as) (hP : ∀ a ∈ as, P a) :
    Along step (fun s a s' => P a ∧ R s a s') s as := by
  induction as generalizing s with
  | nil => exact trivial
  | cons a as ih =>
      rw [List.forall_mem_cons] at hP
      intro s' hstep
      obtain ⟨hR, hrest⟩ := h s' hstep
      exact ⟨⟨hP.1, hR⟩, ih hrest hP.2⟩

theorem guarded_eq_some_iff (step : σ → α → Option σ) (p : σ → α → Bool)
    (s s' : σ) (a : α) :
    guarded step p s a = some s' ↔ p s a = true ∧ step s a = some s' := by
  by_cases h : p s a <;> simp [guarded, h]

namespace Reaches

variable {step : σ → α → Option σ} {allowed allowed' : σ → α → Prop}
  {init : σ → Prop}

/-- The invariant rule: what holds initially and is kept by every allowed step
holds in every state reached. -/
theorem invariant {I : σ → Prop} (hinit : ∀ s, init s → I s)
    (hkeep : ∀ s a s', I s → allowed s a → step s a = some s' → I s')
    {s : σ} (h : Reaches step allowed init s) : I s := by
  induction h with
  | start h0 => exact hinit _ h0
  | next _ hallowed hstep ih => exact hkeep _ _ _ ih hallowed hstep

theorem mono (himp : ∀ s a, allowed s a → allowed' s a)
    {s : σ} (h : Reaches step allowed init s) : Reaches step allowed' init s := by
  induction h with
  | start h0 => exact .start h0
  | next _ hallowed hstep ih => exact .next ih (himp _ _ hallowed) hstep

theorem of_runs_of_forall (hall : ∀ s a, allowed s a) :
    ∀ {as : List α} {s s' : σ}, Reaches step allowed init s →
      runs step s as = some s' → Reaches step allowed init s'
  | [], s, s', h, hrun => by
      rw [runs_nil, Option.some.injEq] at hrun
      exact hrun ▸ h
  | a :: as, s, s', h, hrun => by
      rw [runs_cons] at hrun
      obtain ⟨m, hstep, hrest⟩ := Option.bind_eq_some_iff.mp hrun
      exact of_runs_of_forall hall (.next h (hall s a) hstep) hrest

/-- An evaluated run reaches its last state. -/
theorem of_runs {as : List α} {s s' : σ} (h0 : init s)
    (hrun : runs step s as = some s') : Reaches step unrestricted init s' :=
  of_runs_of_forall (fun _ _ => trivial) (.start h0) hrun

/-- What an evaluated run's last state satisfies is satisfied by a reached
state. -/
theorem exists_of_runs {as : List α} {s : σ} {P : σ → Prop} [DecidablePred P]
    (h0 : init s) (h : (runs step s as).any (fun s' => decide (P s')) = true) :
    ∃ s', Reaches step unrestricted init s' ∧ P s' := by
  obtain ⟨s', hrun, hp⟩ := (Option.any_eq_true _ _).mp h
  exact ⟨s', of_runs h0 hrun, of_decide_eq_true hp⟩

/-- An evaluated run of guarded steps reaches its last state by steps that
pass the guard. -/
theorem of_runs_guarded {p : σ → α → Bool} {as : List α} {s s' : σ}
    (h0 : init s) (hrun : runs (guarded step p) s as = some s') :
    Reaches step (fun s a => p s a = true) init s' := by
  suffices h : ∀ (as : List α) (t : σ),
      Reaches step (fun s a => p s a = true) init t →
        runs (guarded step p) t as = some s' →
          Reaches step (fun s a => p s a = true) init s' from
    h as s (.start h0) hrun
  intro as
  induction as with
  | nil =>
      intro t ht hrun
      rw [runs_nil, Option.some.injEq] at hrun
      exact hrun ▸ ht
  | cons a as ih =>
      intro t ht hrun
      rw [runs_cons] at hrun
      obtain ⟨m, hstep, hrest⟩ := Option.bind_eq_some_iff.mp hrun
      obtain ⟨hp, hstep⟩ := (guarded_eq_some_iff step p t m a).mp hstep
      exact ih m (.next ht hp hstep) hrest

theorem exists_of_runs_guarded {p : σ → α → Bool} {as : List α} {s : σ}
    {P : σ → Prop} [DecidablePred P] (h0 : init s)
    (h : (runs (guarded step p) s as).any (fun s' => decide (P s')) = true) :
    ∃ s', Reaches step (fun s a => p s a = true) init s' ∧ P s' := by
  obtain ⟨s', hrun, hp⟩ := (Option.any_eq_true _ _).mp h
  exact ⟨s', of_runs_guarded h0 hrun, of_decide_eq_true hp⟩

end Reaches

end Transition

/-!
## Programs

A program on a state returns or throws, and the state it leaves is there in both
cases; or it faults, and there is none.
-/

abbrev Program (σ ε φ α : Type) := ExceptT ε (StateT σ (Except φ)) α

namespace Program

variable {σ ε φ α β : Type} {I : σ → Prop} {s : σ}

/-- What is read of the state. -/
def reads (f : σ → Except φ α) : Program σ ε φ α :=
  ExceptT.mk fun s => (f s).map fun a => (.ok a, s)

def changes (f : σ → Except φ σ) : Program σ ε φ Unit :=
  ExceptT.mk fun s => (f s).map fun s' => (.ok (), s')

/-- Where a program ends, it ends in states of `I`. -/
def EndsIn (I : σ → Prop) (x : Program σ ε φ α) (s : σ) : Prop :=
  ∀ r s', x.run.run s = .ok (r, s') → I s'

/-- A program keeps an invariant. -/
def Keeps (I : σ → Prop) (x : Program σ ε φ α) : Prop := ∀ s, I s → x.EndsIn I s

theorem endsIn_pure (hs : I s) (a : α) : (pure a : Program σ ε φ α).EndsIn I s := by
  rintro r s' ⟨⟩
  exact hs

theorem endsIn_throw (hs : I s) (e : ε) : (throw e : Program σ ε φ α).EndsIn I s := by
  rintro r s' ⟨⟩
  exact hs

theorem endsIn_bind {x : Program σ ε φ α} {f : α → Program σ ε φ β}
    (h : ∀ r s', x.run.run s = .ok (r, s') →
      match r with
      | .ok a => (f a).EndsIn I s'
      | .error _ => I s') : (x >>= f).EndsIn I s := by
  intro r s' hrun
  rw [ExceptT.run_bind, StateT.run_bind] at hrun
  cases hx : x.run.run s with
  | error fault =>
      rw [hx] at hrun
      cases hrun
  | ok result =>
      obtain ⟨r', m⟩ := result
      rw [hx] at hrun
      cases r' with
      | ok a => exact h _ _ hx r s' hrun
      | error e =>
          cases hrun
          exact h _ _ hx

/-- What each part keeps, the whole keeps. -/
theorem EndsIn.bind {x : Program σ ε φ α} {f : α → Program σ ε φ β} (hx : x.EndsIn I s)
    (hf : ∀ a, (f a).Keeps I) : (x >>= f).EndsIn I s := by
  refine endsIn_bind fun r s' hrun => ?_
  cases r with
  | ok a => exact hf a s' (hx _ _ hrun)
  | error e => exact hx _ _ hrun

theorem Keeps.bind {x : Program σ ε φ α} {f : α → Program σ ε φ β} (hx : x.Keeps I)
    (hf : ∀ a, (f a).Keeps I) : (x >>= f).Keeps I := fun s hs => (hx s hs).bind hf

/-- What is read is known of the state. -/
theorem endsIn_reads_bind {f : σ → Except φ α} {g : α → Program σ ε φ β}
    (h : ∀ a, f s = .ok a → (g a).EndsIn I s) : (reads f >>= g).EndsIn I s := by
  refine endsIn_bind fun r s' hrun => ?_
  change (f s).map (fun a => (Except.ok a, s)) = .ok (r, s') at hrun
  cases hf : f s with
  | error fault =>
      rw [hf] at hrun
      cases hrun
  | ok a =>
      rw [hf] at hrun
      cases hrun
      exact h a hf

theorem run_reads_bind {f : σ → Except φ α} {a : α} (h : f s = .ok a)
    (g : α → Program σ ε φ β) : (reads f >>= g).run.run s = (g a).run.run s := by
  have hrun : (reads f : Program σ ε φ α).run.run s = .ok (.ok a, s) := by
    change (f s).map (fun a => (Except.ok a, s)) = .ok (.ok a, s)
    rw [h]
    rfl
  rw [ExceptT.run_bind, StateT.run_bind, hrun]
  rfl

theorem keeps_reads (f : σ → Except φ α) : (reads f : Program σ ε φ α).Keeps I := by
  intro s hs r s' hrun
  change (f s).map (fun a => (Except.ok a, s)) = .ok (r, s') at hrun
  cases hf : f s with
  | error fault =>
      rw [hf] at hrun
      cases hrun
  | ok a =>
      rw [hf] at hrun
      cases hrun
      exact hs

theorem endsIn_changes {f : σ → Except φ σ} (h : ∀ s', f s = .ok s' → I s') :
    (changes f : Program σ ε φ Unit).EndsIn I s := by
  intro r s' hrun
  change (f s).map (fun s' => (Except.ok (), s')) = .ok (r, s') at hrun
  cases hf : f s with
  | error fault =>
      rw [hf] at hrun
      cases hrun
  | ok m =>
      rw [hf] at hrun
      cases hrun
      exact h _ hf

end Program

/-!
## Exclusion by a state

Members enter and leave a place, and a flag says that it is taken. Where a
member enters only when it is free, at most one is inside, and the flag is up
exactly then. Where a member `c` is, is a value `f c`.
-/

/-- At most one member is inside, and the place is taken exactly when one is. -/
structure Exclusive {ι α : Type*} (inside : α → Prop) (f : ι → α) (taken : Prop) : Prop where
  unique : ∀ c d, inside (f c) → inside (f d) → c = d
  exists_iff : (∃ c, inside (f c)) ↔ taken

namespace Exclusive

variable {ι α : Type*} {inside : α → Prop} {f : ι → α} {taken taken' : Prop} {c : ι}
  {x : α}

/-- Nobody is inside at first. -/
theorem nobody (hf : ∀ c, ¬ inside (f c)) (hfree : ¬ taken) : Exclusive inside f taken where
  unique := fun c _ hc => absurd hc (hf c)
  exists_iff := iff_of_false (fun ⟨c, hc⟩ => hf c hc) hfree

variable [DecidableEq ι]

/-- A member enters a free place. -/
theorem enter (h : Exclusive inside f taken) (hfree : ¬ taken) (hx : inside x)
    (htaken : taken') : Exclusive inside (Function.update f c x) taken' := by
  have hc : ∀ d, inside (Function.update f c x d) → d = c := fun d hd => by
    by_contra hne
    rw [Function.update_of_ne hne] at hd
    exact hfree (h.exists_iff.mp ⟨d, hd⟩)
  refine ⟨fun a b ha hb => (hc a ha).trans (hc b hb).symm, iff_of_true ⟨c, ?_⟩ htaken⟩
  rwa [Function.update_self]

/-- The member that is inside leaves. -/
theorem leave (h : Exclusive inside f taken) (hc : inside (f c)) (hx : ¬ inside x)
    (hfree : ¬ taken') : Exclusive inside (Function.update f c x) taken' := by
  refine nobody (fun d hd => ?_) hfree
  by_cases hdc : d = c
  · rw [hdc, Function.update_self] at hd
    exact hx hd
  · rw [Function.update_of_ne hdc] at hd
    exact hdc (h.unique d c hd hc)

/-- A member stays inside or outside. -/
theorem stay (h : Exclusive inside f taken) (hx : inside x ↔ inside (f c)) :
    Exclusive inside (Function.update f c x) taken := by
  have hiff : ∀ d, inside (Function.update f c x d) ↔ inside (f d) := fun d => by
    by_cases hdc : d = c
    · rw [hdc, Function.update_self, hx]
    · rw [Function.update_of_ne hdc]
  refine ⟨fun a b ha hb => h.unique a b ((hiff a).mp ha) ((hiff b).mp hb), ?_⟩
  rw [← h.exists_iff]
  exact exists_congr hiff

end Exclusive
