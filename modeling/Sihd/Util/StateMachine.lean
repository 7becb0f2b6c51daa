import Mathlib.Algebra.Group.Nat.Defs
import Sihd.Lib.UnorderedMap

/-!
# State machines

The transitions of a machine are a map from a packed key, the state in the upper
half and the event in the lower one, to the next state.
-/

namespace Sihd.Util

/-- An enumeration, with its cast to `uint32_t`. -/
class Enumeration (α : Type) where
  toUInt32 : α → UInt32
  injective : Function.Injective toUInt32

structure StateMachine (State Event : Type) where
  state : State
  lastEvent : Event
  transitions : UnorderedMap UInt64 State

namespace StateMachine

variable {State Event : Type} [Enumeration State] [Enumeration Event]

/-- Encodes a state and an event into a single key. -/
def packKey (s : State) (e : Event) : UInt64 :=
  (Enumeration.toUInt32 s).toUInt64 <<< 32 ||| (Enumeration.toUInt32 e).toUInt64

def addTransition (m : StateMachine State Event) (source : State) (event : Event)
    (into : State) : StateMachine State Event :=
  { m with transitions := m.transitions.assign (packKey source event) into }

def transition (m : StateMachine State Event) (event : Event) :
    StateMachine State Event × Bool :=
  match m.transitions.find (packKey m.state event) with
  | none => (m, false)
  | some into => ({ m with state := into, lastEvent := event }, true)

def setTransitionsMap (m : StateMachine State Event) (l : List (UInt64 × State)) :
    StateMachine State Event :=
  { m with transitions := .ofList l }

/-- The state that the machine goes to. -/
def target (m : StateMachine State Event) (s : State) (e : Event) : Option State :=
  m.transitions.find (packKey s e)

theorem toNat_packKey (s : State) (e : Event) :
    (packKey s e).toNat =
      (Enumeration.toUInt32 s).toNat * 2 ^ 32 + (Enumeration.toUInt32 e).toNat := by
  have hs := (Enumeration.toUInt32 s).toNat_lt
  have he := (Enumeration.toUInt32 e).toNat_lt
  rw [packKey, UInt64.toNat_or, UInt64.toNat_shiftLeft, UInt32.toNat_toUInt64,
    UInt32.toNat_toUInt64]
  have hshift : (Enumeration.toUInt32 s).toNat <<< ((32 : UInt64).toNat % 64) % 2 ^ 64 =
      (Enumeration.toUInt32 s).toNat <<< 32 := by
    rw [Nat.mod_eq_of_lt (a := _ <<< _)]
    · rfl
    · change _ <<< 32 < _
      rw [Nat.shiftLeft_eq]
      omega
  rw [hshift, ← Nat.shiftLeft_add_eq_or_of_lt he, Nat.shiftLeft_eq]

theorem packKey_inj {s s' : State} {e e' : Event} :
    packKey s e = packKey s' e' ↔ s = s' ∧ e = e' := by
  refine ⟨fun h => ?_, fun h => by rw [h.1, h.2]⟩
  have hnat := congrArg UInt64.toNat h
  rw [toNat_packKey, toNat_packKey] at hnat
  have he := (Enumeration.toUInt32 e).toNat_lt
  have he' := (Enumeration.toUInt32 e').toNat_lt
  refine ⟨Enumeration.injective (UInt32.toNat_inj.mp ?_),
    Enumeration.injective (UInt32.toNat_inj.mp ?_)⟩ <;> omega

theorem target_addTransition_self (m : StateMachine State Event) (source : State)
    (event : Event) (into : State) :
    (m.addTransition source event into).target source event = some into :=
  UnorderedMap.find_assign_self ..

theorem target_addTransition_of_ne (m : StateMachine State Event) {source s : State}
    {event e : Event} (h : ¬ (s = source ∧ e = event)) (into : State) :
    (m.addTransition source event into).target s e = m.target s e :=
  UnorderedMap.find_assign_of_ne _ (packKey_inj.not.mpr h) _

theorem transition_of_target {m : StateMachine State Event} {event : Event} {into : State}
    (h : m.target m.state event = some into) :
    m.transition event = ({ m with state := into, lastEvent := event }, true) := by
  rw [target] at h
  rw [transition, h]

theorem target_of_transition {m m' : StateMachine State Event} {event : Event}
    (h : m.transition event = (m', true)) :
    ∃ into, m.target m.state event = some into ∧
      m' = { m with state := into, lastEvent := event } := by
  rw [transition] at h
  split at h
  · cases h
  · next into htarget => exact ⟨into, htarget, (Prod.mk.inj h).1.symm⟩

/-- A machine that has no transition for an event stays as it is. -/
theorem eq_of_transition {m m' : StateMachine State Event} {event : Event}
    (h : m.transition event = (m', false)) : m' = m := by
  rw [transition] at h
  split at h
  · exact (Prod.mk.inj h).1.symm
  · cases h

end StateMachine

end Sihd.Util
