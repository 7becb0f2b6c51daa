import Mathlib.Logic.Function.Basic
import Sihd.Util.Array

/-!
# Dynamic messages

The fields of a `DynMessage` have arrays of their own. A message is read field
by field: when a field has its bytes the rules of the field are played, and a
rule can hide, show or resize fields, which changes what is read next.

A `MessageField` is seen here by the bytes of its array. A rule is given a
state of the client's next to the message and the field, so that it can depend
on what was played before.
-/

namespace Sihd.Util

/-- A field: `size` is what the array was last resized to, or the size it was
built with when it was not resized since. -/
structure MessageField where
  dt : DataType
  size : Nat
  array : Option IArray
  typed : ∀ a, array = some a → a.type = dt ∧ (a.size = size ∨ a.size = 0)
  unbuilt : array = none → dt.hasArray = false

namespace MessageField

/-- `MessageField(name)`. -/
def create : MessageField := ⟨.none, 0, none, by simp, by simp [DataType.hasArray]⟩

/-- `build_array`, with the field that it leaves. -/
def buildArray (dt : DataType) (size : Nat) : Bool × MessageField :=
  if h : dt.hasArray then
    (true, ⟨dt, size, some (.ofSize dt 0), by rintro a ⟨⟩; simp [IArray.ofSize], by simp⟩)
  else (false, ⟨dt, size, none, by simp, by simpa using h⟩)

def fieldByteSize (f : MessageField) : Nat := f.size * f.dt.size

/-- `field_read_from`, with the field that it leaves when it returns true. -/
def fieldReadFrom (f : MessageField) (buffer : List UInt8) : Option MessageField :=
  match harray : f.array with
  | none => none
  | some a =>
      match hcopy : a.copyFromBytes buffer .all with
      | none => none
      | some a' =>
          some { f with
            array := some a'
            typed := by
              rintro _ ⟨⟩
              obtain ⟨htype, hsize⟩ := IArray.copyFromBytes_shape hcopy
              rw [htype, hsize]
              exact f.typed a harray
            unbuilt := by simp }

/-- `field_write_to` at an offset of the memory `out`, of which `size` bytes
are left, with the memory that it leaves when it returns true. -/
def fieldWriteTo (f : MessageField) (out : List UInt8) (offset size : Nat) :
    Option (List UInt8) :=
  f.array.map fun a => overwrite out offset (a.buf.take (min size a.byteSize))

/-- `field_resize`, with the field that it leaves when it returns true. -/
def fieldResize (f : MessageField) (size : Nat) : Option MessageField :=
  match harray : f.array with
  | none => none
  | some a =>
      some { f with
        size := size
        array := some (a.resize size)
        typed := by
          rintro _ ⟨⟩
          simp [(f.typed a harray).1]
        unbuilt := by simp }

end MessageField

/-- `_children_keys`, `_fields` and `_hidden_fields` with the total size of the
last read. The map has a field for each of the keys. -/
structure DynMessage where
  childrenKeys : List String
  fields : String → MessageField
  hiddenFields : String → Bool
  finished : Bool
  totalDynSize : Nat
  nodup : childrenKeys.Nodup

/-- What a rule does with the message. -/
inductive Effect
  | hideField (name : String) (active : Bool)
  | fieldResize (name : String) (size : Nat)

def Effect.target : Effect → String
  | hideField name _ | fieldResize name _ => name

/-- A rule, over the states `σ` of the client. -/
abbrev RuleCallback (σ : Type*) := σ → DynMessage → MessageField → σ × List Effect

/-- The rules of each field, in the order in which they were added. -/
abbrev Rules (σ : Type*) := String → List (RuleCallback σ)

namespace DynMessage

def create : DynMessage := ⟨[], fun _ => .create, fun _ => false, false, 0, List.nodup_nil⟩

def setField (m : DynMessage) (name : String) (field : MessageField) : DynMessage :=
  { m with fields := Function.update m.fields name field }

@[simp]
theorem setField_fields_self (m : DynMessage) (name : String) (field : MessageField) :
    (m.setField name field).fields name = field := by
  simp [setField]

theorem setField_fields_of_ne (m : DynMessage) {name name' : String} (h : name' ≠ name)
    (field : MessageField) : (m.setField name field).fields name' = m.fields name' := by
  simp [setField, h]

/-- `add_field` by type; the field stays when it cannot be built. -/
def addField (m : DynMessage) (name : String) (dt : DataType) (size : Nat) :
    Bool × DynMessage :=
  if h : name ∈ m.childrenKeys then (false, m)
  else
    let (ok, field) := MessageField.buildArray dt size
    (ok, { m with
      childrenKeys := m.childrenKeys ++ [name]
      fields := Function.update m.fields name field
      nodup := by
        rw [List.nodup_append_comm]
        exact List.nodup_cons.mpr ⟨h, m.nodup⟩ })

def hideField (m : DynMessage) (name : String) (active : Bool) : DynMessage :=
  if name ∈ m.childrenKeys then
    { m with hiddenFields := Function.update m.hiddenFields name active }
  else m

/-- `field_resize` of a child. -/
def resizeField (m : DynMessage) (name : String) (size : Nat) : DynMessage :=
  if name ∈ m.childrenKeys then
    m.setField name (((m.fields name).fieldResize size).getD (m.fields name))
  else m

/-- `finish` resizes the arrays to the sizes of the fields. -/
def finish (m : DynMessage) : Bool × DynMessage :=
  if m.finished then (false, m)
  else
    (true, { m.childrenKeys.foldl
      (fun m name => m.resizeField name (m.fields name).size) m with finished := true })

def fieldByteSize (m : DynMessage) : Nat := m.totalDynSize

def applyEffect (m : DynMessage) : Effect → DynMessage
  | .hideField name active => m.hideField name active
  | .fieldResize name size => m.resizeField name size

variable {σ : Type*}

/-- One rule of a field. -/
def playRule (name : String) (s : σ × DynMessage) (callback : RuleCallback σ) :
    σ × DynMessage :=
  let (state, effects) := callback s.1 s.2 (s.2.fields name)
  (state, effects.foldl applyEffect s.2)

/-- `_play_rules`. -/
def playRules (rules : Rules σ) (name : String) (s : σ × DynMessage) : σ × DynMessage :=
  (rules name).foldl (playRule name) s

/-- The loop of `field_read_from`; `current` is the number of bytes read. -/
def readFields (rules : Rules σ) (buffer : List UInt8) (size : Nat) :
    List String → Nat → σ × DynMessage → Bool × σ × DynMessage
  | [], _, s => (true, s)
  | name :: names, current, s =>
      if s.2.hiddenFields name then readFields rules buffer size names current s
      else if size < current + (s.2.fields name).fieldByteSize then (false, s)
      else
        match (s.2.fields name).fieldReadFrom
            ((buffer.drop current).take (s.2.fields name).fieldByteSize) with
        | none => (false, s)
        | some field =>
            let (state, m) := playRules rules name (s.1, s.2.setField name field)
            let current' := current + (m.fields name).fieldByteSize
            readFields rules buffer size names current' (state, { m with totalDynSize := current' })

/-- `field_read_from` with the state of the client and the message it leaves. -/
def fieldReadFrom (rules : Rules σ) (buffer : List UInt8) (size : Nat) (state : σ)
    (m : DynMessage) : Bool × σ × DynMessage :=
  readFields rules buffer size m.childrenKeys 0 (state, { m with totalDynSize := 0 })

/-- The loop of `field_write_to`. -/
def writeFields (m : DynMessage) (size : Nat) :
    List String → Nat → List UInt8 → Bool × List UInt8
  | [], _, out => (true, out)
  | name :: names, current, out =>
      if m.hiddenFields name then writeFields m size names current out
      else if size < current + (m.fields name).fieldByteSize then (false, out)
      else
        match (m.fields name).fieldWriteTo out current (size - current) with
        | none => (false, out)
        | some out' =>
            writeFields m size names (current + (m.fields name).fieldByteSize) out'

/-- `field_write_to` to the memory `out`. -/
def fieldWriteTo (m : DynMessage) (out : List UInt8) (size : Nat) : Bool × List UInt8 :=
  writeFields m size m.childrenKeys 0 out

end DynMessage

end Sihd.Util
