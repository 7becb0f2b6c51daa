import Mathlib.Data.List.Flatten
import Mathlib.Data.List.Induction
import Mathlib.Data.List.Nodup

/-!
# Observables

A notification calls the observers of a list one after the other, while they add
and remove observers of the same list. All is done at once but the removal of the
observer that is called, which is done behind its call.
-/

namespace Sihd.Util

/-- The list of observers, which the iterator of a notification divides, and no observer twice. -/
structure Observable (ι : Type*) where
  before : List ι
  rest : List ι
  currentObserver : Option ι
  removeCurrentObserver : Bool
  nodup : (before ++ rest).Nodup

namespace Observable

/-- What a handler calls. -/
inductive Call (ι : Type*)
  | addObserver (obs : ι) (addToFront : Bool)
  | removeObserver (obs : ι)
  | isObserver (obs : ι)
  deriving DecidableEq

/-- An observer that is called, with the calls of its handler. -/
abbrev Turn (ι : Type*) := ι × List (Call ι)

variable {ι : Type*}

def observers (s : Observable ι) : List ι := s.before ++ s.rest

/-- No notification is going on. -/
def Idle (s : Observable ι) : Prop :=
  s.currentObserver = none ∧ s.removeCurrentObserver = false

/-- The iterator is set to the first observer. -/
def rewind (s : Observable ι) : Observable ι :=
  { s with before := [], rest := s.observers, nodup := s.nodup }

theorem nodup_cons_before {s : Observable ι} {obs : ι} (h : obs ∉ s.observers) :
    (obs :: s.before ++ s.rest).Nodup := List.nodup_cons.mpr ⟨h, s.nodup⟩

theorem nodup_rest_concat {s : Observable ι} {obs : ι} (h : obs ∉ s.observers) :
    (s.before ++ (s.rest ++ [obs])).Nodup := by
  rw [← List.append_assoc, ← List.concat_eq_append]
  exact s.nodup.concat h

/-- The end of a turn of the loop. -/
def advance (s : Observable ι) : Observable ι :=
  if s.removeCurrentObserver then
    { s with
      rest := s.rest.tail
      removeCurrentObserver := false
      nodup := s.nodup.sublist ((List.Sublist.refl _).append (List.tail_sublist _)) }
  else
    { s with
      before := s.before ++ s.rest.take 1
      rest := s.rest.tail
      nodup := by
        rw [List.append_assoc, ← List.drop_one, List.take_append_drop]
        exact s.nodup }

theorem removeCurrentObserver_advance (s : Observable ι) :
    s.advance.removeCurrentObserver = false := by
  rw [advance]
  split
  · rfl
  · rename_i hflag
    simpa using hflag

theorem rest_advance (s : Observable ι) : s.advance.rest = s.rest.tail := by
  rw [advance]
  split <;> rfl

/-- The calls of some turns. -/
def callsOf (turns : List (Turn ι)) : List (Call ι) := turns.flatMap Prod.snd

theorem callsOf_append (a b : List (Turn ι)) : callsOf (a ++ b) = callsOf a ++ callsOf b :=
  List.flatMap_append

theorem callsOf_cons (t : Turn ι) (a : List (Turn ι)) : callsOf (t :: a) = t.2 ++ callsOf a := rfl

variable [DecidableEq ι]

def addObserver (s : Observable ι) (obs : ι) (addToFront : Bool) : Bool × Observable ι :=
  if h : obs ∈ s.observers then (false, s)
  else if addToFront then
    (true, { s with before := obs :: s.before, nodup := nodup_cons_before h })
  else (true, { s with rest := s.rest ++ [obs], nodup := nodup_rest_concat h })

/-- An observer that is not the current one stands on one side of the iterator only. -/
def removeObserver (s : Observable ι) (obs : ι) : Observable ι :=
  if s.currentObserver = some obs then { s with removeCurrentObserver := true }
  else
    { s with
      before := s.before.erase obs
      rest := s.rest.erase obs
      nodup := s.nodup.sublist (List.erase_sublist.append List.erase_sublist) }

def call (s : Observable ι) : Call ι → Observable ι
  | .addObserver obs addToFront => (s.addObserver obs addToFront).2
  | .removeObserver obs => s.removeObserver obs
  | .isObserver _ => s

/-- A turn of the loop. -/
def turn (s : Observable ι) (t : Turn ι) : Observable ι :=
  (t.2.foldl call { s with currentObserver := some t.1 }).advance

/-- The loop of `notify_observers`, by the turns that it takes. The handlers call what they want
to. -/
inductive Loop : Observable ι → List (Turn ι) → Observable ι → Prop
  | done {s : Observable ι} : s.rest = [] → Loop s [] { s with currentObserver := none }
  | step {s s' : Observable ι} {t : Turn ι} {turns : List (Turn ι)} :
      s.rest.head? = some t.1 → Loop (s.turn t) turns s' → Loop s (t :: turns) s'

/-- `notify_observers`. -/
def NotifyObservers (s : Observable ι) (turns : List (Turn ι)) (s' : Observable ι) : Prop :=
  Loop s.rewind turns s'

/-! ### What a notification should do -/

/-- A call on the list of observers. -/
def apply (l : List ι) : Call ι → List ι
  | .addObserver obs addToFront =>
      if obs ∈ l then l else if addToFront then obs :: l else l ++ [obs]
  | .removeObserver obs => l.erase obs
  | .isObserver _ => l

def applyAll (l : List ι) (calls : List (Call ι)) : List ι := calls.foldl apply l

/-- The notification of some observers by some turns, and what it leaves. -/
structure Conforms (l : List ι) (turns : List (Turn ι)) (l' : List ι) : Prop where
  /-- The calls are applied in order. -/
  eq_applyAll : l' = applyAll l (callsOf turns)
  /-- Who is not called was removed. -/
  called : ∀ o ∈ l, o ∈ turns.map Prod.fst ∨ ∃ t ∈ turns, Call.removeObserver o ∈ t.2
  /-- Who is called twice was not registered in between, and was added again, to the back. -/
  once : ∀ o a c b c' d, turns = a ++ (o, c) :: (b ++ (o, c') :: d) →
    ∃ b₁ t b₂ p q, b = b₁ ++ t :: b₂ ∧ t.2 = p ++ Call.addObserver o false :: q ∧
      o ∉ applyAll l (callsOf (a ++ (o, c) :: b₁) ++ p)
  /-- Who is called is registered then. -/
  registered : ∀ o a c b, turns = a ++ (o, c) :: b → o ∈ applyAll l (callsOf a)

/-- The last call of a handler about its own observer, behind one that removes it, is none that
adds it. -/
def StaysRemoved (t : Turn ι) : Prop :=
  ∀ p q r addToFront,
    t.2 = p ++ Call.removeObserver t.1 :: (q ++ Call.addObserver t.1 addToFront :: r) →
      Call.removeObserver t.1 ∈ r

/-! ### Calls -/

theorem applyAll_append (l : List ι) (calls calls' : List (Call ι)) :
    applyAll l (calls ++ calls') = applyAll (applyAll l calls) calls' := List.foldl_append

theorem applyAll_concat (l : List ι) (calls : List (Call ι)) (c : Call ι) :
    applyAll l (calls ++ [c]) = apply (applyAll l calls) c := List.foldl_concat _ _ _ _

theorem nodup_apply {l : List ι} (h : l.Nodup) (c : Call ι) : (apply l c).Nodup := by
  cases c with
  | addObserver obs addToFront =>
    rw [apply]
    split_ifs with hmem
    · exact h
    · exact List.nodup_cons.mpr ⟨hmem, h⟩
    · rw [← List.concat_eq_append]
      exact h.concat hmem
  | removeObserver obs => exact h.erase obs
  | isObserver obs => exact h

theorem nodup_applyAll {l : List ι} (h : l.Nodup) (calls : List (Call ι)) :
    (applyAll l calls).Nodup := by
  induction calls generalizing l with
  | nil => exact h
  | cons c calls ih => exact ih (nodup_apply h c)

/-- Who was removed and is there was added behind the last removal. -/
theorem exists_addObserver {l : List ι} (hl : l.Nodup) {o : ι} {calls : List (Call ι)}
    (hremove : Call.removeObserver o ∈ calls) (hmem : o ∈ applyAll l calls) :
    ∃ p q r addToFront,
      calls = p ++ Call.removeObserver o :: (q ++ Call.addObserver o addToFront :: r) ∧
        Call.removeObserver o ∉ r := by
  induction calls using List.reverseRecOn with
  | nil => cases hremove
  | append_singleton calls c ih =>
    rw [applyAll_concat] at hmem
    have hc : c ≠ .removeObserver o := by
      rintro rfl
      exact (nodup_applyAll hl calls).not_mem_erase hmem
    rw [List.mem_append, List.mem_singleton, or_iff_left (Ne.symm hc)] at hremove
    by_cases hbefore : o ∈ applyAll l calls
    · obtain ⟨p, q, r, addToFront, rfl, hr⟩ := ih hremove hbefore
      refine ⟨p, q, r ++ [c], addToFront, by simp, ?_⟩
      rw [List.mem_append, List.mem_singleton, not_or]
      exact ⟨hr, Ne.symm hc⟩
    · obtain ⟨p, q, rfl⟩ := List.append_of_mem hremove
      have hadd : ∃ addToFront, c = .addObserver o addToFront := by
        cases c with
        | addObserver obs addToFront =>
          refine ⟨addToFront, congrArg (Call.addObserver · addToFront) ?_⟩
          by_contra hne
          refine hbefore ?_
          rw [apply] at hmem
          split_ifs at hmem
          · exact hmem
          · exact (List.mem_cons.mp hmem).resolve_left (Ne.symm hne)
          · exact (List.mem_append.mp hmem).resolve_right
              (List.mem_singleton.not.mpr (Ne.symm hne))
        | removeObserver obs => exact absurd (List.mem_of_mem_erase hmem) hbefore
        | isObserver obs => exact absurd hmem hbefore
      obtain ⟨addToFront, rfl⟩ := hadd
      exact ⟨p, q, [], addToFront, by simp, List.not_mem_nil⟩

/-! ### A turn -/

/-- What the calls of the handler of `o` make of the observers, but for `o` itself when it is
removed. -/
structure Agrees (s : Observable ι) (o : ι) (l : List ι) : Prop where
  current : s.currentObserver = some o
  head : s.rest.head? = some o
  nodup : l.Nodup
  erase_eq : s.observers.erase o = l.erase o
  eq_of_not_remove : s.removeCurrentObserver = false → l = s.observers

variable {s : Observable ι} {o : ι} {l : List ι}

theorem Agrees.mem_iff (h : Agrees s o l) {x : ι} (hx : x ≠ o) : x ∈ s.observers ↔ x ∈ l := by
  rw [← List.mem_erase_of_ne hx, h.erase_eq, List.mem_erase_of_ne hx]

theorem observers_addObserver (s : Observable ι) (obs : ι) (addToFront : Bool) :
    (s.addObserver obs addToFront).2.observers = apply s.observers (.addObserver obs addToFront) := by
  rw [addObserver, apply]
  split_ifs
  · rfl
  · rfl
  · exact (List.append_assoc _ _ _).symm

theorem erase_addObserver (l : List ι) (x : ι) (addToFront : Bool) :
    (apply l (.addObserver x addToFront)).erase x = l.erase x := by
  rw [apply]
  split_ifs with hmem
  · rfl
  · rw [List.erase_cons_head, List.erase_of_not_mem hmem]
  · rw [List.erase_append_right _ hmem, List.erase_cons_head, List.append_nil,
      List.erase_of_not_mem hmem]

theorem erase_addObserver_of_ne {x : ι} (h : x ≠ o) (l : List ι) (addToFront : Bool) :
    (apply l (.addObserver x addToFront)).erase o =
      apply (l.erase o) (.addObserver x addToFront) := by
  simp only [apply, List.mem_erase_of_ne h]
  split_ifs
  · rfl
  · exact List.erase_cons_tail (by simpa using h)
  · by_cases hmem : o ∈ l
    · exact List.erase_append_left _ hmem
    · have hsingle : o ∉ [x] := List.mem_singleton.not.mpr (Ne.symm h)
      rw [List.erase_append_right _ hmem, List.erase_of_not_mem hsingle,
        List.erase_of_not_mem hmem]

theorem observers_removeObserver {x : ι} (h : s.currentObserver ≠ some x) :
    (s.removeObserver x).observers = s.observers.erase x := by
  rw [removeObserver, if_neg h, observers, observers]
  by_cases hmem : x ∈ s.before
  · have hrest : x ∉ s.rest := List.disjoint_of_nodup_append s.nodup hmem
    rw [List.erase_append_left _ hmem]
    exact congrArg _ (List.erase_of_not_mem hrest)
  · rw [List.erase_append_right _ hmem]
    exact congrArg (· ++ _) (List.erase_of_not_mem hmem)

theorem Agrees.addObserver (h : Agrees s o l) (x : ι) (addToFront : Bool) :
    Agrees (s.addObserver x addToFront).2 o (apply l (.addObserver x addToFront)) where
  current := by
    rw [Observable.addObserver]
    split_ifs <;> exact h.current
  head := by
    rw [Observable.addObserver]
    split_ifs
    · exact h.head
    · exact h.head
    · rw [List.head?_append, h.head, Option.some_or]
  nodup := nodup_apply h.nodup _
  erase_eq := by
    rw [observers_addObserver]
    by_cases hx : x = o
    · rw [hx, erase_addObserver, erase_addObserver, h.erase_eq]
    · rw [erase_addObserver_of_ne hx, erase_addObserver_of_ne hx, h.erase_eq]
  eq_of_not_remove := by
    intro hflag
    rw [observers_addObserver, ← h.eq_of_not_remove]
    rw [Observable.addObserver] at hflag
    split_ifs at hflag <;> exact hflag

theorem Agrees.removeObserver (h : Agrees s o l) (x : ι) :
    Agrees (s.removeObserver x) o (apply l (.removeObserver x)) := by
  by_cases hx : x = o
  · subst hx
    have heq : s.removeObserver x = { s with removeCurrentObserver := true } :=
      if_pos h.current
    rw [heq]
    refine ⟨h.current, h.head, nodup_apply h.nodup _, ?_, nofun⟩
    exact h.erase_eq.trans (List.erase_of_not_mem h.nodup.not_mem_erase).symm
  · have hcurrent : s.currentObserver ≠ some x := by
      rw [h.current, ne_eq, Option.some_inj]
      exact Ne.symm hx
    have hflag : (s.removeObserver x).removeCurrentObserver = s.removeCurrentObserver := by
      rw [Observable.removeObserver, if_neg hcurrent]
    refine ⟨?_, ?_, nodup_apply h.nodup _, ?_, ?_⟩
    · rw [Observable.removeObserver, if_neg hcurrent]
      exact h.current
    · rw [Observable.removeObserver, if_neg hcurrent]
      obtain ⟨rest, hrest⟩ := List.head?_eq_some_iff.mp h.head
      change (s.rest.erase x).head? = some o
      rw [hrest, List.erase_cons_tail (by simpa using Ne.symm hx)]
      rfl
    · rw [observers_removeObserver hcurrent, apply, List.erase_comm, h.erase_eq, List.erase_comm]
    · intro hfalse
      rw [hflag] at hfalse
      rw [observers_removeObserver hcurrent, apply, h.eq_of_not_remove hfalse]

theorem Agrees.call (h : Agrees s o l) (c : Call ι) : Agrees (s.call c) o (apply l c) := by
  cases c with
  | addObserver x addToFront => exact h.addObserver x addToFront
  | removeObserver x => exact h.removeObserver x
  | isObserver x => exact h

theorem Agrees.calls (h : Agrees s o l) (calls : List (Call ι)) :
    Agrees (calls.foldl Observable.call s) o (applyAll l calls) := by
  induction calls generalizing s l with
  | nil => exact h
  | cons c calls ih => exact ih (h.call c)

/-- Where a handler begins. -/
theorem agrees_start (hhead : s.rest.head? = some o) :
    Agrees { s with currentObserver := some o } o s.observers :=
  ⟨rfl, hhead, s.nodup, rfl, fun _ => rfl⟩

/-- The mark is set by a removal of the observer that is called. -/
theorem Agrees.removeCurrentObserver_eq (h : Agrees s o l) (calls : List (Call ι)) :
    (calls.foldl Observable.call s).removeCurrentObserver = true ↔
      s.removeCurrentObserver = true ∨ Call.removeObserver o ∈ calls := by
  induction calls generalizing s l with
  | nil => simp
  | cons c calls ih =>
    rw [List.foldl_cons, ih (h.call c), List.mem_cons, ← or_assoc]
    refine or_congr_left ?_
    cases c with
    | addObserver x addToFront =>
      have hflag : (s.addObserver x addToFront).2.removeCurrentObserver =
          s.removeCurrentObserver := by
        rw [Observable.addObserver]
        split_ifs <;> rfl
      simp [Observable.call, hflag]
    | removeObserver x =>
      rw [Observable.call, Observable.removeObserver, h.current]
      by_cases hx : o = x
      · simp [hx]
      · simp [hx]
    | isObserver x => simp [Observable.call]

theorem observers_advance (h : s.rest.head? = some o) :
    s.advance.observers = if s.removeCurrentObserver then s.observers.erase o else s.observers := by
  obtain ⟨rest, hrest⟩ := List.head?_eq_some_iff.mp h
  have hnodup := s.nodup
  rw [hrest] at hnodup
  have hbefore : o ∉ s.before := fun hmem =>
    List.disjoint_of_nodup_append hnodup hmem List.mem_cons_self
  rw [advance]
  split
  · change s.before ++ s.rest.tail = _
    rw [observers, List.erase_append_right _ hbefore, hrest, List.erase_cons_head, List.tail_cons]
  · change s.before ++ s.rest.take 1 ++ s.rest.tail = s.before ++ s.rest
    rw [List.append_assoc, ← List.drop_one, List.take_append_drop]

/-- A turn applies the calls of its handler. -/
theorem observers_turn {t : Turn ι} (hflag : s.removeCurrentObserver = false)
    (hhead : s.rest.head? = some t.1) (ht : StaysRemoved t) :
    (s.turn t).observers = applyAll s.observers t.2 := by
  have hstart := agrees_start hhead
  have hend := hstart.calls t.2
  have hmark := hstart.removeCurrentObserver_eq t.2
  rw [turn, observers_advance hend.head]
  split
  · rename_i hset
    have hremove := (hmark.mp hset).resolve_left (by simp [hflag])
    have hnot : t.1 ∉ applyAll s.observers t.2 := by
      intro hmem
      obtain ⟨p, q, r, addToFront, heq, hr⟩ := exists_addObserver s.nodup hremove hmem
      exact hr (ht p q r addToFront heq)
    rw [hend.erase_eq, List.erase_of_not_mem hnot]
  · rename_i hset
    exact (hend.eq_of_not_remove (by simpa using hset)).symm

theorem mem_applyAll {x : ι} (hx : x ∈ l) {calls : List (Call ι)}
    (hcalls : Call.removeObserver x ∉ calls) : x ∈ applyAll l calls := by
  induction calls generalizing l with
  | nil => exact hx
  | cons c calls ih =>
    rw [List.mem_cons, not_or] at hcalls
    refine ih ?_ hcalls.2
    cases c with
    | addObserver obs addToFront =>
      rw [apply]
      split_ifs
      · exact hx
      · exact List.mem_cons_of_mem _ hx
      · exact List.mem_append_left _ hx
    | removeObserver obs =>
      have hne : x ≠ obs := by
        rintro rfl
        exact hcalls.1 rfl
      exact (List.mem_erase_of_ne hne).mpr hx
    | isObserver obs => exact hx

theorem mem_apply_addObserver (l : List ι) (x : ι) (addToFront : Bool) :
    x ∈ apply l (.addObserver x addToFront) := by
  rw [apply]
  split_ifs with hmem
  · exact hmem
  · exact List.mem_cons_self
  · exact List.mem_append_right _ List.mem_cons_self

/-- No other turn applies the calls of its handler. -/
theorem observers_turn_iff {t : Turn ι} (hflag : s.removeCurrentObserver = false)
    (hhead : s.rest.head? = some t.1) :
    (s.turn t).observers = applyAll s.observers t.2 ↔ StaysRemoved t := by
  refine ⟨fun heq => ?_, observers_turn hflag hhead⟩
  intro p q r addToFront hcalls
  by_contra hr
  have hstart := agrees_start hhead
  have hend := hstart.calls t.2
  have hset := (hstart.removeCurrentObserver_eq t.2).mpr (.inr (by rw [hcalls]; simp))
  have hmem : t.1 ∈ applyAll s.observers t.2 := by
    rw [hcalls, List.append_cons, ← List.append_assoc, List.append_cons, applyAll_append,
      applyAll_concat]
    exact mem_applyAll (mem_apply_addObserver _ _ _) hr
  rw [← heq, turn, observers_advance hend.head, if_pos hset] at hmem
  exact (t.2.foldl call { s with currentObserver := some t.1 }).nodup.not_mem_erase hmem

/-- An observer that removes and adds itself. -/
theorem observers_turn_iff_readded :
    ((⟨[], [0, 1], none, false, by decide⟩ : Observable Nat).turn
      (0, [.removeObserver 0, .addObserver 0 false])).observers = [1, 0] ↔
      StaysRemoved (0, [Call.removeObserver 0, .addObserver 0 false]) :=
  observers_turn_iff (t := (0, [.removeObserver 0, .addObserver 0 false])) rfl rfl

omit [DecidableEq ι] in
theorem staysRemoved_of_not_mem {t : Turn ι}
    (h : ∀ addToFront, Call.addObserver t.1 addToFront ∉ t.2) : StaysRemoved t := by
  intro p q r addToFront hcalls
  refine absurd ?_ (h addToFront)
  rw [hcalls]
  simp

/-! ### The loop -/

theorem Loop.append {a b : List (Turn ι)} {s s' : Observable ι} (h : Loop s (a ++ b) s') :
    Loop (a.foldl turn s) b s' := by
  induction a generalizing s with
  | nil => exact h
  | cons t a ih =>
    cases h with
    | step _ h => exact ih h

theorem Loop.observers_foldl {a b : List (Turn ι)} {s s' : Observable ι}
    (h : Loop s (a ++ b) s') (hflag : s.removeCurrentObserver = false)
    (hturns : ∀ t ∈ a, StaysRemoved t) :
    (a.foldl turn s).observers = applyAll s.observers (callsOf a) ∧
      (a.foldl turn s).removeCurrentObserver = false := by
  induction a generalizing s with
  | nil => exact ⟨rfl, hflag⟩
  | cons t a ih =>
    rw [List.forall_mem_cons] at hturns
    cases h with
    | step hhead h =>
      obtain ⟨hobservers, hflag'⟩ := ih h (removeCurrentObserver_advance _) hturns.2
      refine ⟨?_, hflag'⟩
      rw [List.foldl_cons, hobservers, observers_turn hflag hhead hturns.1, callsOf_cons,
        applyAll_append]

/-- What is ahead of the iterator is removed or has its turn. -/
theorem mem_rest_call {x : ι} (hx : x ∈ s.rest) {c : Call ι} (hc : c ≠ .removeObserver x) :
    x ∈ (s.call c).rest := by
  cases c with
  | addObserver obs addToFront =>
    rw [call, addObserver]
    split_ifs
    · exact hx
    · exact hx
    · exact List.mem_append_left _ hx
  | removeObserver obs =>
    have hne : x ≠ obs := by
      rintro rfl
      exact hc rfl
    rw [call, removeObserver]
    split_ifs
    · exact hx
    · exact (List.mem_erase_of_ne hne).mpr hx
  | isObserver obs => exact hx

theorem mem_rest_calls {x : ι} (hx : x ∈ s.rest) {calls : List (Call ι)}
    (hcalls : Call.removeObserver x ∉ calls) : x ∈ (calls.foldl call s).rest := by
  induction calls generalizing s with
  | nil => exact hx
  | cons c calls ih =>
    rw [List.mem_cons, not_or] at hcalls
    exact ih (mem_rest_call hx (Ne.symm hcalls.1)) hcalls.2

theorem Loop.called {s s' : Observable ι} {turns : List (Turn ι)} (h : Loop s turns s')
    {x : ι} (hx : x ∈ s.rest) :
    x ∈ turns.map Prod.fst ∨ ∃ t ∈ turns, Call.removeObserver x ∈ t.2 := by
  induction h with
  | done hrest =>
    rw [hrest] at hx
    cases hx
  | @step s s' t turns hhead _ ih =>
    by_cases hxt : x = t.1
    · exact .inl (hxt ▸ List.mem_cons_self)
    by_cases hremove : Call.removeObserver x ∈ t.2
    · exact .inr ⟨t, List.mem_cons_self, hremove⟩
    have hmem : x ∈ (s.turn t).rest := by
      have hend := (agrees_start hhead).calls t.2
      obtain ⟨rest, hrest⟩ := List.head?_eq_some_iff.mp hend.head
      have hmem := mem_rest_calls (s := { s with currentObserver := some t.1 }) hx hremove
      rw [hrest] at hmem
      rw [turn, rest_advance, hrest]
      exact (List.mem_cons.mp hmem).resolve_left hxt
    rcases ih hmem with hcalled | ⟨t', ht', hremove'⟩
    · exact .inl (List.mem_cons_of_mem _ hcalled)
    · exact .inr ⟨t', List.mem_cons_of_mem _ ht', hremove'⟩

/-- What gets ahead of the iterator is added there. -/
theorem exists_addObserver_of_mem_rest {x : ι} {calls : List (Call ι)} (hx : x ∉ s.rest)
    (hmem : x ∈ (calls.foldl call s).rest) :
    ∃ p q, calls = p ++ Call.addObserver x false :: q ∧ x ∉ (p.foldl call s).observers := by
  induction calls using List.reverseRecOn with
  | nil => exact absurd hmem hx
  | append_singleton calls c ih =>
    by_cases hbefore : x ∈ (calls.foldl call s).rest
    · obtain ⟨p, q, rfl, hp⟩ := ih hbefore
      exact ⟨p, q ++ [c], by simp, hp⟩
    · rw [List.foldl_concat] at hmem
      cases c with
      | addObserver obs addToFront =>
        rw [call, addObserver] at hmem
        split_ifs at hmem with hobs hfront
        · exact absurd hmem hbefore
        · exact absurd hmem hbefore
        · obtain rfl := List.mem_singleton.mp ((List.mem_append.mp hmem).resolve_left hbefore)
          rw [Bool.not_eq_true] at hfront
          subst hfront
          exact ⟨calls, [], rfl, hobs⟩
      | removeObserver obs =>
        rw [call, removeObserver] at hmem
        split_ifs at hmem
        · exact absurd hmem hbefore
        · exact absurd (List.mem_of_mem_erase hmem) hbefore
      | isObserver obs => exact absurd hmem hbefore

/-- Who is not ahead of the iterator and has a turn was added before it, to the back. -/
theorem Loop.exists_addObserver {b d : List (Turn ι)} {c : List (Call ι)} {x : ι}
    {s s' : Observable ι} (h : Loop s (b ++ (x, c) :: d) s') (hx : x ∉ s.rest)
    (hflag : s.removeCurrentObserver = false) (hturns : ∀ t ∈ b, StaysRemoved t) :
    ∃ b₁ t b₂ p q, b = b₁ ++ t :: b₂ ∧ t.2 = p ++ Call.addObserver x false :: q ∧
      x ∉ applyAll s.observers (callsOf b₁ ++ p) := by
  induction b generalizing s with
  | nil =>
    cases h with
    | step hhead _ => exact absurd (List.mem_of_mem_head? hhead) hx
  | cons t b ih =>
    rw [List.forall_mem_cons] at hturns
    cases h with
    | step hhead h =>
      have hstart := agrees_start hhead
      by_cases hmem : x ∈ (s.turn t).rest
      · rw [turn, rest_advance] at hmem
        obtain ⟨p, q, hcalls, hp⟩ :=
          exists_addObserver_of_mem_rest (s := { s with currentObserver := some t.1 }) hx
            (List.mem_of_mem_tail hmem)
        have hxt : x ≠ t.1 := by
          rintro rfl
          exact hx (List.mem_of_mem_head? hhead)
        exact ⟨[], t, b, p, q, rfl, hcalls, ((hstart.calls p).mem_iff hxt).not.mp hp⟩
      · obtain ⟨b₁, t', b₂, p, q, rfl, hcalls, hp⟩ :=
          ih h hmem (removeCurrentObserver_advance _) hturns.2
        refine ⟨t :: b₁, t', b₂, p, q, rfl, hcalls, ?_⟩
        rw [observers_turn hflag hhead hturns.1, ← applyAll_append] at hp
        rwa [callsOf_cons, List.append_assoc]

/-- The observer that has its turn is not ahead of the iterator behind it. -/
theorem not_mem_rest_turn {t : Turn ι} (hhead : s.rest.head? = some t.1) :
    t.1 ∉ (s.turn t).rest := by
  have hend := (agrees_start hhead).calls t.2
  obtain ⟨rest, hrest⟩ := List.head?_eq_some_iff.mp hend.head
  have hnodup := (t.2.foldl call { s with currentObserver := some t.1 }).nodup
  rw [hrest, List.nodup_append'] at hnodup
  rw [turn, rest_advance, hrest]
  exact (List.nodup_cons.mp hnodup.2.1).1

theorem Loop.head {t : Turn ι} {turns : List (Turn ι)} {s s' : Observable ι}
    (h : Loop s (t :: turns) s') : s.rest.head? = some t.1 ∧ Loop (s.turn t) turns s' := by
  cases h with
  | step hhead h => exact ⟨hhead, h⟩

/-- A notification is one of the observers in order, with all their calls applied, when no handler
adds its own observer behind its removal. -/
theorem NotifyObservers.conforms {s s' : Observable ι} {turns : List (Turn ι)}
    (h : s.NotifyObservers turns s') (hidle : s.Idle) (hturns : ∀ t ∈ turns, StaysRemoved t) :
    Conforms s.observers turns s'.observers ∧ s'.Idle := by
  have hrun : ∀ a b, turns = a ++ b → Loop (a.foldl turn s.rewind) b s' ∧
      (a.foldl turn s.rewind).observers = applyAll s.observers (callsOf a) ∧
      (a.foldl turn s.rewind).removeCurrentObserver = false := by
    rintro a b rfl
    have hloop : Loop s.rewind (a ++ b) s' := h
    exact ⟨hloop.append, hloop.observers_foldl hidle.2 (List.forall_mem_append.mp hturns).1⟩
  obtain ⟨hend, hobservers, hflag⟩ := hrun turns [] (List.append_nil _).symm
  generalize turns.foldl turn s.rewind = e at hend hobservers hflag
  cases hend with
  | done hrest =>
    refine ⟨⟨hobservers, ?_, ?_, ?_⟩, rfl, hflag⟩
    · exact fun o ho => Loop.called h ho
    · rintro o a c b c' d rfl
      obtain ⟨hloop, heq, hflag'⟩ := hrun a _ rfl
      obtain ⟨hhead, hloop'⟩ := hloop.head
      have hturn : StaysRemoved (o, c) := hturns _ (List.mem_append_right _ List.mem_cons_self)
      obtain ⟨b₁, t, b₂, p, q, hb, hcalls, hp⟩ := hloop'.exists_addObserver
        (not_mem_rest_turn hhead) (removeCurrentObserver_advance _) fun t ht =>
          hturns t (List.mem_append_right _ (List.mem_cons_of_mem _ (List.mem_append_left _ ht)))
      refine ⟨b₁, t, b₂, p, q, hb, hcalls, ?_⟩
      rw [observers_turn hflag' hhead hturn, heq, ← applyAll_append, ← applyAll_append] at hp
      rwa [callsOf_append, callsOf_cons, List.append_assoc, List.append_assoc]
    · rintro o a c b rfl
      obtain ⟨hloop, heq, -⟩ := hrun a _ rfl
      rw [← heq]
      exact List.mem_append_right _ (List.mem_of_mem_head? hloop.head.1)

/-- Two observers: the first removes itself, and the second adds it again. -/
theorem NotifyObservers.conforms_two :
    Conforms [0, 1] [(0, [.removeObserver 0]), (1, [.addObserver 0 false]), (0, [])] [1, 0] := by
  have hloop : NotifyObservers ⟨[], [0, 1], none, false, by decide⟩
      [(0, [.removeObserver 0]), (1, [.addObserver 0 false]), (0, [])]
      ⟨[1, 0], [], none, false, by decide⟩ := .step rfl (.step rfl (.step rfl (.done rfl)))
  refine (NotifyObservers.conforms hloop ⟨rfl, rfl⟩ fun t ht => ?_).1
  refine staysRemoved_of_not_mem fun addToFront => ?_
  revert t addToFront
  decide

/-- An observer that removes and adds itself is gone. -/
theorem not_conforms_readded :
    ¬ ∀ turns s', NotifyObservers ⟨[], [0], none, false, by decide⟩ turns s' →
      Conforms [0] turns s'.observers := by
  intro h
  have hloop : NotifyObservers ⟨[], [0], none, false, by decide⟩
      [(0, [.removeObserver 0, .addObserver 0 false])] ⟨[], [], none, false, by decide⟩ :=
    .step rfl (.done rfl)
  have heq := (h _ _ hloop).eq_applyAll
  revert heq
  decide

end Observable

end Sihd.Util
