import Sihd.Util.Message.Layout

/-!
# Reading and writing the fields of a finished message

The arrays of a finished message and of its fields are in one block of memory, whose
bytes are `mem` here. A field is read from a buffer of `size` bytes and written to one;
a buffer without bytes is a null pointer.
-/

namespace Sihd.Util

/-- The children with their names, in order. -/
def Children.toList : Children → List (String × IMessageField)
  | .nil => []
  | .cons name field rest => (name, field) :: rest.toList

namespace IMessageField

/-- The number of elements; a message is one element. -/
def fieldSize : IMessageField → Nat
  | messageField _ size _ => size
  | message _ _ _ _ => 1

def fieldType : IMessageField → DataType
  | messageField dt _ _ => dt
  | message _ _ _ _ => .byte

/-- A field that is not built has no array. -/
def hasArray : IMessageField → Bool
  | messageField dt _ _ => dt.hasArray
  | message _ _ _ _ => true

def isFinished : IMessageField → Bool
  | messageField dt _ _ => dt.hasArray
  | message _ finished _ _ => finished

/-- The bytes of the array of a field. -/
def arrayBytes (field : IMessageField) (mem : List UInt8) : List UInt8 :=
  match field.buf with
  | none => []
  | some b => (mem.drop b.offset).take b.size

/-- `copy_from_bytes` to the array of the field, with the memory it leaves. -/
def fieldReadFrom (field : IMessageField) (mem buffer : List UInt8) : Option (List UInt8) :=
  match field.buf with
  | none => none
  | some b =>
      if field.hasArray ∧ 0 < b.size ∧ buffer.length ≤ b.size then
        some (overwrite mem b.offset buffer)
      else none

/-- `memcpy` from the array of the field, which answers its destination. -/
def fieldWriteTo (field : IMessageField) (mem buffer : List UInt8) (size : Nat) :
    Option (List UInt8) :=
  if field.hasArray ∧ buffer ≠ [] then
    some (overwrite buffer 0 ((field.arrayBytes mem).take size))
  else none

/-- The array of a field is in the memory. -/
def IsPlaced (field : IMessageField) (mem : List UInt8) : Prop :=
  ∃ b, field.buf = some b ∧ b.size = field.fieldByteSize ∧ b.offset + b.size ≤ mem.length

/-- The array of a field is a part of that of another one. -/
def IsPartOf (field message : IMessageField) : Prop :=
  ∀ b, field.buf = some b → ∀ b', message.buf = some b' →
    b.block = b'.block ∧ b'.offset ≤ b.offset ∧ b.offset + b.size ≤ b'.offset + b'.size

/-- A message whose fields have their parts of its buffer. The names of the children
are the keys of a map. -/
structure IsFinished (message : IMessageField) (mem : List UInt8) : Prop where
  finished : message.isFinished = true
  type : message.fieldType = .byte
  placed : message.IsPlaced mem
  addressable : mem.length < 2 ^ 63
  names : (message.children.toList.map Prod.fst).Nodup
  fields : ∀ f ∈ message.children.toList, f.2.hasArray = true ∧ 0 < f.2.fieldSize
  parts : ∀ f ∈ message.children.toList, f.2.IsPlaced mem ∧ f.2.IsPartOf message

/-- The array of a field gets some bytes, which are as many as its own, and nothing else
changes. -/
def Sets (field : IMessageField) (mem mem' bytes : List UInt8) : Prop :=
  ∃ b, field.buf = some b ∧ bytes.length = b.size ∧ mem' = overwrite mem b.offset bytes

variable {field message : IMessageField} {mem mem' buffer : List UInt8}

theorem arrayBytes_of_buf {b : Buffer} (h : field.buf = some b) (mem : List UInt8) :
    field.arrayBytes mem = (mem.drop b.offset).take b.size := by
  rw [arrayBytes, h]

theorem IsPlaced.arrayBytes_length (h : field.IsPlaced mem) :
    (field.arrayBytes mem).length = field.fieldByteSize := by
  obtain ⟨b, hbuf, hsize, hfits⟩ := h
  rw [arrayBytes_of_buf hbuf, List.length_take, List.length_drop]
  omega

theorem fieldReadFrom_length (hplaced : field.IsPlaced mem)
    (h : field.fieldReadFrom mem buffer = some mem') : mem'.length = mem.length := by
  obtain ⟨b, hbuf, hsize, hfits⟩ := hplaced
  simp only [fieldReadFrom, hbuf] at h
  split at h
  · rename_i hroom
    cases h
    exact overwrite_length (by omega)
  · cases h

theorem fieldWriteTo_length {buffer' : List UInt8} {size : Nat}
    (h : field.fieldWriteTo mem buffer size = some buffer') (hsize : size ≤ buffer.length) :
    buffer'.length = buffer.length := by
  simp only [fieldWriteTo] at h
  split at h
  · cases h
    refine overwrite_length ?_
    rw [Nat.zero_add, List.length_take]
    omega
  · cases h

/-- Only the number of bytes of the memory matters. -/
theorem IsPlaced.of_length (h : field.IsPlaced mem) (hlength : mem'.length = mem.length) :
    field.IsPlaced mem' := by
  obtain ⟨b, hbuf, hsize, hfits⟩ := h
  exact ⟨b, hbuf, hsize, hlength ▸ hfits⟩

theorem IsFinished.of_length (h : message.IsFinished mem) (hlength : mem'.length = mem.length) :
    message.IsFinished mem' :=
  { h with
    placed := h.placed.of_length hlength
    addressable := hlength ▸ h.addressable
    parts := fun f hf => (h.parts f hf).imp_left fun hplaced => hplaced.of_length hlength }

/-- A part that is as large as the whole is the whole. -/
theorem IsFinished.offset_eq (h : message.IsFinished mem) {f : String × IMessageField}
    (hf : f ∈ message.children.toList) (hsize : f.2.fieldByteSize = message.fieldByteSize)
    {b b' : Buffer} (hb : f.2.buf = some b) (hb' : message.buf = some b') :
    b.offset = b'.offset ∧ b.size = b'.size := by
  obtain ⟨⟨b₁, hb₁, hsize₁, -⟩, hpart⟩ := h.parts f hf
  obtain ⟨b₂, hb₂, hsize₂, -⟩ := h.placed
  cases hb.symm.trans hb₁
  cases hb'.symm.trans hb₂
  obtain ⟨-, hstart, hend⟩ := hpart b hb b' hb'
  omega

end IMessageField

/-! ## What `finish` leaves -/

namespace Children

theorem LaidFrom.parts {block : Nat} : (children : Children) → {offset : Nat} →
    children.LaidFrom block offset → ∀ f ∈ children.toList,
      ∃ b, f.2.buf = some b ∧ b.block = block ∧ b.size = f.2.fieldByteSize ∧ offset ≤ b.offset ∧
        b.offset + b.size ≤ offset + children.sizes.sum
  | .nil, _, _ => fun _ hf => by cases hf
  | .cons name field rest, offset, h => by
      obtain ⟨hbuf, -, hrest⟩ := h
      intro f hf
      rw [sizes_cons, List.sum_cons]
      rcases List.mem_cons.mp hf with rfl | hf
      · exact ⟨_, hbuf, rfl, rfl, le_rfl, by dsimp only; omega⟩
      · obtain ⟨b, hb, hblock, hsize, hstart, hend⟩ := LaidFrom.parts rest hrest f hf
        exact ⟨b, hb, hblock, hsize, by omega, by omega⟩

/-- The loop of `field_assign_buffer` keeps the names and stops at a field that has no
bytes. -/
theorem assignFieldArrays_toList (block offset totalSize : Nat) : (children : Children) →
    (assignAt : Nat) →
    (children.assignFieldArrays block offset totalSize assignAt).1 = true →
      (children.assignFieldArrays block offset totalSize assignAt).2.1.toList.map Prod.fst =
        children.toList.map Prod.fst ∧
      ∀ f ∈ (children.assignFieldArrays block offset totalSize assignAt).2.1.toList,
        f.2.hasArray = true ∧ 0 < f.2.fieldSize
  | .nil, _ => fun _ => ⟨rfl, fun _ hf => by cases hf⟩
  | .cons name field rest, assignAt => by
      rw [assignFieldArrays]
      dsimp only
      split
      · intro h
        cases h
      · rename_i hfield
        rw [not_or] at hfield
        intro h
        obtain ⟨hnames, hrest⟩ := assignFieldArrays_toList block offset totalSize rest _ h
        refine ⟨congrArg (name :: ·) hnames, fun f hf => ?_⟩
        rcases List.mem_cons.mp hf with rfl | hf
        · have hok := hfield.1
          cases field with
          | messageField dt size buf =>
            rw [IMessageField.fieldAssignBuffer] at hok ⊢
            split at hok
            · exact absurd rfl hok
            · rename_i hbuilt
              rw [if_neg hbuilt]
              rw [not_or, not_or] at hbuilt
              exact ⟨by simpa [IMessageField.hasArray] using hbuilt.2.2, Nat.pos_of_ne_zero hbuilt.1⟩
          | message totalSize' finished buf children => exact ⟨rfl, Nat.one_pos⟩
        · exact hrest f hf

end Children

namespace IMessageField

/-- A message that `finish` returned `true` for, in a block that holds its buffer. -/
theorem isFinished_of_finish {totalSize block : Nat} {finished : Bool} {buf : Option Buffer}
    {children : Children} {message' : IMessageField} {assigned : List Assignment}
    {mem : List UInt8} (hsound : (message totalSize finished buf children).Sound)
    (hfits : (message totalSize finished buf children).Fits)
    (hnames : (children.toList.map Prod.fst).Nodup)
    (h : (message totalSize finished buf children).finish block = some (true, message', assigned))
    (hmem : ∀ b, message'.buf = some b → b.offset + b.size ≤ mem.length)
    (haddressable : mem.length < 2 ^ 63) : message'.IsFinished mem := by
  have hlaid := (finished_finish hsound hfits h).laid rfl
  rw [finish] at h
  split at h
  · cases h
  · obtain ⟨b, -, h⟩ := Option.bind_eq_some_iff.mp h
    split at h
    · cases h
    · obtain ⟨hok, rfl, -⟩ := Prod.mk.injEq .. ▸ (Option.some.inj h)
      obtain ⟨hnames', hfields⟩ := children.assignFieldArrays_toList b.block b.offset totalSize 0 hok
      obtain ⟨b', hb', hsize, hsum, hparts⟩ := hlaid
      cases hb'
      refine ⟨hok, rfl, ⟨b, rfl, hsize, hmem b rfl⟩, haddressable, hnames' ▸ hnames, hfields,
        fun f hf => ?_⟩
      obtain ⟨bf, hbf, hblock, hsizef, hstart, hend⟩ := Children.LaidFrom.parts _ hparts f hf
      have hroom := hmem b rfl
      refine ⟨⟨bf, hbf, hsizef, by omega⟩, fun b₁ hb₁ b₂ hb₂ => ?_⟩
      cases hbf.symm.trans hb₁
      cases hb₂
      exact ⟨hblock, hstart, by omega⟩

end IMessageField

end Sihd.Util
