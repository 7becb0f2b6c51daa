import Sihd.Util.DataType

/-!
# Messages and their buffers

A message is a tree: its children are fields, of a primitive type or messages
themselves, and every field object is in one place of it. `finish` gives the
message a buffer of `totalSize` bytes and hands each child the part of it that
follows the parts of the children before it.

A `Buffer` is what an array points to: a block of the allocator, an offset in
it and a number of bytes. The block that an array gets when it is resized is
the allocator's choice, which `finish` takes as an argument.
-/

namespace Sihd.Util

/-- The memory of an array; `owned` when the array allocated it. -/
structure Buffer where
  block : Nat
  offset : Nat
  size : Nat
  owned : Bool
  deriving DecidableEq

mutual

/-- A field of a message. -/
inductive IMessageField
  | messageField (dt : DataType) (size : Nat) (buf : Option Buffer)
  | message (totalSize : Nat) (finished : Bool) (buf : Option Buffer)
      (children : Children)

/-- The children of a message, in the order of `children_keys`. -/
inductive Children
  | nil
  | cons (name : String) (field : IMessageField) (rest : Children)

end

/-- A range given to a field, and the end of the buffer of its message. -/
structure Assignment where
  offset : Nat
  size : Nat
  limit : Nat
  deriving DecidableEq

namespace Children

def byteSizes (sizeOf : IMessageField → Nat) : Children → List Nat
  | nil => []
  | cons _ field rest => sizeOf field :: rest.byteSizes sizeOf

def contains (name : String) : Children → Bool
  | nil => false
  | cons key _ rest => key == name || rest.contains name

def find? (name : String) : Children → Option IMessageField
  | nil => none
  | cons key field rest => if key = name then some field else rest.find? name

def append (name : String) (field : IMessageField) : Children → Children
  | nil => cons name field nil
  | cons key field' rest => cons key field' (rest.append name field)

def erase (name : String) : Children → Children
  | nil => nil
  | cons key field rest => if key = name then rest else cons key field (rest.erase name)

/-- Replace the child of a name by what `g` makes of it. -/
def modify (name : String) (g : IMessageField → Option IMessageField) :
    Children → Option Children
  | nil => none
  | cons key field rest =>
      if key = name then (g field).map fun field' => cons key field' rest
      else (rest.modify name g).map fun rest' => cons key field rest'

end Children

namespace IMessageField

/-- `MessageField(name)` and `Message(name)`. -/
def createField : IMessageField := .messageField .none 0 none

def createMessage : IMessageField := .message 0 false none .nil

def buf : IMessageField → Option Buffer
  | messageField _ _ buf => buf
  | message _ _ buf _ => buf

def fieldByteSize : IMessageField → Nat
  | messageField dt size _ => size * dt.size
  | message totalSize _ _ _ => totalSize

end IMessageField

/-- The sizes of the children, in order. -/
abbrev Children.sizes (children : Children) : List Nat :=
  children.byteSizes IMessageField.fieldByteSize

/-- `Array::assign_bytes`: an array that already points there is left alone. -/
def assignBytes (buf : Option Buffer) (block offset size : Nat) : Option Buffer :=
  match buf with
  | some b =>
      if b.block = block ∧ b.offset = offset then some b
      else some ⟨block, offset, size, false⟩
  | none => some ⟨block, offset, size, false⟩

mutual

/-- `field_assign_buffer`, with the field it leaves and the ranges it gave to
fields. `limit` is the end of the buffer that the range is taken from. -/
def IMessageField.fieldAssignBuffer (block offset limit : Nat) :
    IMessageField → Bool × IMessageField × List Assignment
  | .messageField dt size buf =>
      if size = 0 ∨ dt = .none ∨ dt.hasArray = false then
        (false, .messageField dt size buf, [])
      else
        (true, .messageField dt size (assignBytes buf block offset (size * dt.size)),
          [⟨offset, size * dt.size, limit⟩])
  | .message totalSize finished buf children =>
      let (ok, children', assigned) := children.assignFieldArrays block offset totalSize 0
      (ok, .message totalSize finished (assignBytes buf block offset totalSize) children',
        ⟨offset, totalSize, limit⟩ :: assigned)

/-- The loop of `Message::field_assign_buffer` over `_assign_field_array`:
`assignAt` is where the next child goes. The bound is checked after the child
has got its range. -/
def Children.assignFieldArrays (block offset totalSize assignAt : Nat) :
    Children → Bool × Children × List Assignment
  | .nil => (true, .nil, [])
  | .cons name field rest =>
      let (ok, field', assigned) :=
        field.fieldAssignBuffer block (offset + assignAt) (offset + totalSize)
      if ok = false ∨ totalSize < assignAt + field.fieldByteSize then
        (false, .cons name field' rest, assigned)
      else
        let (ok', rest', assigned') :=
          rest.assignFieldArrays block offset totalSize (assignAt + field.fieldByteSize)
        (ok', .cons name field' rest', assigned ++ assigned')

end

mutual

/-- The blocks that the arrays of a field allocated. -/
def IMessageField.ownedBlocks : IMessageField → List Nat
  | .messageField _ _ buf => (buf.filter (·.owned)).toList.map (·.block)
  | .message _ _ buf children =>
      (buf.filter (·.owned)).toList.map (·.block) ++ children.ownedBlocks

def Children.ownedBlocks : Children → List Nat
  | .nil => []
  | .cons _ field rest => field.ownedBlocks ++ rest.ownedBlocks

end

/-- `_arr.resize(_total_size)`. An array that does not own its memory can keep
it when it is enough; `none` is the reallocation of memory that the array did
not allocate, which has no defined result. -/
def resizeArray (buf : Option Buffer) (size block : Nat) : Option Buffer :=
  match buf with
  | some b =>
      if b.owned then some ⟨block, 0, size, true⟩
      else if size ≤ b.size then some { b with size := size } else none
  | none => some ⟨block, 0, size, true⟩

namespace IMessageField

/-- `finish`: the value it returns, the field it leaves and the ranges it gave
to fields. A block that an array below owns is not the allocator's to give, and
a buffer in it was freed: the result is not defined. -/
def finish (block : Nat) : IMessageField → Option (Bool × IMessageField × List Assignment)
  | messageField dt size buf => some (dt.hasArray, messageField dt size buf, [])
  | message totalSize finished buf children =>
      if finished then some (false, message totalSize finished buf children, [])
      else (resizeArray buf totalSize block).bind fun b =>
        if b.block ∈ children.ownedBlocks then none
        else
          -- the array already points to the buffer it is assigned
          let (ok, children', assigned) :=
            children.assignFieldArrays b.block b.offset totalSize 0
          some (ok, message totalSize ok (some b) children', assigned)

/-- `Node::add_child`, with the value it returns; `none` when the field is not
a node. -/
def addChild (name : String) (child : IMessageField) :
    IMessageField → Option (Bool × IMessageField)
  | messageField _ _ _ => none
  | message totalSize finished buf children =>
      if children.contains name then
        some (false, message totalSize finished buf children)
      else some (true, message totalSize finished buf (children.append name child))

/-- `add_field` of a composite field. -/
def addComposite (name : String) (child : IMessageField) :
    IMessageField → Option (Bool × IMessageField)
  | messageField _ _ _ => none
  | message totalSize finished buf children =>
      if children.contains name then
        some (false, message totalSize finished buf children)
      else
        some (true, message (totalSize + child.fieldByteSize) finished buf
          (children.append name child))

/-- `add_field` by type: the child is added before it is built. -/
def addField (name : String) (dt : DataType) (size : Nat) :
    IMessageField → Option (Bool × IMessageField)
  | messageField _ _ _ => none
  | message totalSize finished buf children =>
      let child := messageField dt size none
      if children.contains name then
        some (false, message totalSize finished buf children)
      else if dt.hasArray then
        some (true, message (totalSize + child.fieldByteSize) finished buf
          (children.append name child))
      else
        some (false, message totalSize finished buf (children.append name child))

/-- `remove_child`: `on_remove_child` leaves the total size alone. -/
def removeChild (name : String) : IMessageField → Option (Bool × IMessageField)
  | messageField _ _ _ => none
  | message totalSize finished buf children =>
      some (children.contains name,
        message totalSize finished buf (children.erase name))

def removeChildren : IMessageField → Option IMessageField
  | messageField _ _ _ => none
  | message totalSize finished buf _ => some (message totalSize finished buf .nil)

/-- The field at the end of a path of children. -/
def atPath : List String → IMessageField → Option IMessageField
  | [], field => some field
  | _ :: _, messageField _ _ _ => none
  | name :: path, message _ _ _ children => (children.find? name).bind (atPath path)

/-- Replace the field at the end of a path by what `g` makes of it. -/
def modifyAt (g : IMessageField → Option IMessageField) :
    List String → IMessageField → Option IMessageField
  | [], field => g field
  | _ :: _, messageField _ _ _ => none
  | name :: path, message totalSize finished buf children =>
      (children.modify name (modifyAt g path)).map (message totalSize finished buf)

/-- The calls of a client on the message at the end of a path. -/
inductive Action
  | addField (name : String) (dt : DataType) (size : Nat)
  | addComposite (name : String) (child : IMessageField)
  | addChild (name : String) (child : IMessageField)
  | removeChild (name : String)
  | removeChildren
  | finish (block : Nat)

/-- What a call makes of the field. -/
def apply : Action → IMessageField → Option IMessageField
  | .addField name dt size, field => (field.addField name dt size).map Prod.snd
  | .addComposite name child, field => (IMessageField.addComposite name child field).map Prod.snd
  | .addChild name child, field => (IMessageField.addChild name child field).map Prod.snd
  | .removeChild name, field => (field.removeChild name).map Prod.snd
  | .removeChildren, field => field.removeChildren
  | .finish block, field => (field.finish block).map fun result => result.2.1

/-- The field that a call adds. -/
def Action.child? : Action → Option IMessageField
  | .addComposite _ child | .addChild _ child => some child
  | _ => none

/-- The fields that sequences of calls build, when every call passes the test
`p`: it is given the path, the field there and the call. A composite field is
built by such a sequence itself. -/
inductive ReachableBy (p : List String → IMessageField → Action → Bool) :
    IMessageField → Prop
  | createField : ReachableBy p createField
  | buildArray (dt : DataType) (size : Nat) : ReachableBy p (messageField dt size none)
  | createMessage : ReachableBy p createMessage
  | call {field target field' : IMessageField} {path : List String} {a : Action}
      (h : ReachableBy p field) (htarget : field.atPath path = some target)
      (ha : p path target a = true)
      (hchild : ∀ child, a.child? = some child → ReachableBy p child)
      (hstep : field.modifyAt (apply a) path = some field') : ReachableBy p field'

end IMessageField

end Sihd.Util
