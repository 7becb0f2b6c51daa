import Sihd.Util.DynMessage.Definitions

/-!
# The layout that a dynamic message reads

The visible layout of a buffer is what the rules prescribe when every field is
filled from the bytes that follow those of the fields before it, whatever the
length of the buffer. A message reads a buffer when the layout fits in it and
every visible field has a non-empty array, and it then writes the bytes that it
has read.
-/

namespace Sihd.Util

/-! ## One field -/

namespace MessageField

/-- The field once it has taken its bytes. -/
def fill (f : MessageField) (bytes : List UInt8) : MessageField :=
  (f.fieldReadFrom bytes).getD f

/-- The array has the size of the field. -/
def Sized (f : MessageField) : Prop := ∀ a, f.array = some a → a.size = f.size

theorem sized_fieldResize (f : MessageField) (size : Nat) :
    ((f.fieldResize size).getD f).Sized := by
  unfold fieldResize
  split
  · rename_i hnone
    intro a harray
    rw [Option.getD_none, hnone] at harray
    cases harray
  · rintro _ ⟨⟩
    exact IArray.resize_size _ size

theorem Sized.fill {f : MessageField} (h : f.Sized) (bytes : List UInt8) :
    (f.fill bytes).Sized := by
  unfold MessageField.fill fieldReadFrom
  split
  · exact h
  · rename_i a harray
    split
    · exact h
    · rename_i a' hcopy
      rintro _ ⟨⟩
      exact (IArray.copyFromBytes_shape hcopy).2.trans (h a harray)

end MessageField

/-! ## The rules of one field -/

/-- The keys that come after one. -/
def later (name : String) : List String → List String
  | [] => []
  | key :: keys => if key = name then keys else later name keys

namespace DynMessage

variable {σ : Type*}

/-- The two messages have the same keys and differ only on the fields of
`names`. -/
structure SameOutside (names : List String) (m m' : DynMessage) : Prop where
  keys : m'.childrenKeys = m.childrenKeys
  fields : ∀ name, name ∉ names → m'.fields name = m.fields name
  hidden : ∀ name, name ∉ names → m'.hiddenFields name = m.hiddenFields name

theorem SameOutside.refl {names : List String} {m : DynMessage} : SameOutside names m m :=
  ⟨rfl, fun _ _ => rfl, fun _ _ => rfl⟩

theorem SameOutside.trans {names : List String} {m m' m'' : DynMessage}
    (h : SameOutside names m m') (h' : SameOutside names m' m'') : SameOutside names m m'' :=
  ⟨h'.keys.trans h.keys, fun name hname => (h'.fields name hname).trans (h.fields name hname),
    fun name hname => (h'.hidden name hname).trans (h.hidden name hname)⟩

theorem SameOutside.mono {names names' : List String} {m m' : DynMessage}
    (h : SameOutside names m m') (hsub : ∀ name ∈ names, name ∈ names') :
    SameOutside names' m m' :=
  ⟨h.keys, fun name hname => h.fields name (mt (hsub name) hname),
    fun name hname => h.hidden name (mt (hsub name) hname)⟩

/-- A visible field takes its bytes, which are zeros after the end of the
buffer, and its rules are played. -/
def takeField (rules : Rules σ) (buffer : List UInt8) (name : String) (offset : Nat)
    (s : σ × DynMessage) : σ × DynMessage :=
  let field := s.2.fields name
  let bytes := (buffer.drop offset).takeD field.fieldByteSize 0
  let (state, m) := playRules rules name (s.1, s.2.setField name (field.fill bytes))
  (state, { m with totalDynSize := offset + field.fieldByteSize })

/-- The visible fields, as they are found when it is their turn to be read. -/
def visibleLayout (rules : Rules σ) (buffer : List UInt8) :
    List String → Nat → σ × DynMessage → List MessageField
  | [], _, _ => []
  | name :: names, offset, s =>
      if s.2.hiddenFields name then visibleLayout rules buffer names offset s
      else
        s.2.fields name :: visibleLayout rules buffer names
          (offset + (s.2.fields name).fieldByteSize) (takeField rules buffer name offset s)

def sizes (layout : List MessageField) : List Nat := layout.map MessageField.fieldByteSize

/-! ## Reading -/

/-- The visible layout of a buffer. -/
def layout (rules : Rules σ) (buffer : List UInt8) (state : σ) (m : DynMessage) :
    List MessageField :=
  visibleLayout rules buffer m.childrenKeys 0 (state, { m with totalDynSize := 0 })

/-- The arrays have the sizes of their fields. -/
def Sized (m : DynMessage) : Prop :=
  ∀ name ∈ m.childrenKeys, (m.fields name).Sized

theorem Sized.setField {m : DynMessage} (hm : m.Sized) (name : String) {field : MessageField}
    (h : field.Sized) : (m.setField name field).Sized := by
  intro name' hname'
  by_cases heq : name' = name
  · subst heq
    rwa [setField_fields_self]
  · rw [setField_fields_of_ne m heq]
    exact hm name' hname'

theorem Sized.applyEffect {m : DynMessage} (hm : m.Sized) (e : Effect) :
    (m.applyEffect e).Sized := by
  cases e with
  | hideField name active =>
    unfold DynMessage.applyEffect hideField
    dsimp only
    split <;> exact hm
  | fieldResize name size =>
    unfold DynMessage.applyEffect resizeField
    dsimp only
    split
    · exact hm.setField name (MessageField.sized_fieldResize _ size)
    · exact hm

theorem Sized.applyEffects {effects : List Effect} :
    {m : DynMessage} → m.Sized → (effects.foldl DynMessage.applyEffect m).Sized := by
  induction effects with
  | nil => exact id
  | cons e effects ih => exact fun h => ih (h.applyEffect e)

theorem Sized.playRules {rules : Rules σ} {name : String} {s : σ × DynMessage}
    (h : s.2.Sized) : (playRules rules name s).2.Sized := by
  unfold DynMessage.playRules
  induction rules name generalizing s with
  | nil => exact h
  | cons callback callbacks ih =>
    apply ih
    unfold playRule
    dsimp only
    exact h.applyEffects

theorem Sized.takeField {rules : Rules σ} {buffer : List UInt8} {name : String} {offset : Nat}
    {s : σ × DynMessage} (h : s.2.Sized) (hname : name ∈ s.2.childrenKeys) :
    (takeField rules buffer name offset s).2.Sized :=
  Sized.playRules (h.setField name ((h name hname).fill _))

section Example

end Example

end DynMessage

end Sihd.Util
