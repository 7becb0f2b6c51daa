import Sihd.Util.Message.Definitions

/-!
# The layout of a finished message

`finish` hands out the ranges of the children by their sizes, up to the
`totalSize` that `add_field` has counted. The two agree when every call keeps
the total size equal to the sum of the sizes of the children (`keepsSizes`):
no range then ends after the buffer of its message, and when `finish` returns
`true` the children follow each other and cover the buffer.
-/

namespace Sihd.Util

mutual

/-- The children of a message have the buffers that follow each other in the
buffer of the message, which they cover. -/
def IMessageField.Laid : IMessageField → Prop
  | .messageField _ _ _ => True
  | .message totalSize _ buf children =>
      ∃ b, buf = some b ∧ b.size = totalSize ∧ children.sizes.sum = totalSize ∧
        children.LaidFrom b.block b.offset

def Children.LaidFrom (block offset : Nat) : Children → Prop
  | .nil => True
  | .cons _ field rest =>
      field.buf = some ⟨block, offset, field.fieldByteSize, false⟩ ∧ field.Laid ∧
        rest.LaidFrom block (offset + field.fieldByteSize)

end

/-- An array that points to the memory of another one has the size of its
field. -/
def IMessageField.Fits (field : IMessageField) : Prop :=
  ∀ b, field.buf = some b → b.owned = false → b.size = field.fieldByteSize

mutual

/-- The total sizes are the sums of the sizes of the children, everywhere below
a field. -/
def IMessageField.Sound : IMessageField → Prop
  | .messageField _ _ _ => True
  | .message totalSize _ _ children => children.sizes.sum = totalSize ∧ children.Sound

def Children.Sound : Children → Prop
  | .nil => True
  | .cons _ field rest => field.Fits ∧ field.Sound ∧ rest.Sound

end

/-- The ranges given to fields end in the buffers that they are taken from. -/
def Inside (assigned : List Assignment) : Prop :=
  ∀ a ∈ assigned, a.offset + a.size ≤ a.limit

@[simp]
theorem Children.sizes_cons (name : String) (field : IMessageField) (rest : Children) :
    (cons name field rest).sizes = field.fieldByteSize :: rest.sizes := rfl

/-! ## Assigning the buffers -/

/-- What `field_assign_buffer` makes of a field. -/
structure IMessageField.Assigned (block offset : Nat) (field : IMessageField)
    (result : Bool × IMessageField × List Assignment) : Prop where
  inside : Inside result.2.2
  laid : result.1 = true → result.2.1.Laid ∧
    result.2.1.buf = some ⟨block, offset, field.fieldByteSize, false⟩
  sound : result.2.1.Sound
  fits : result.2.1.Fits
  byteSize : result.2.1.fieldByteSize = field.fieldByteSize

/-- What the loop over the children makes of them. -/
structure Children.Assigned (block offset : Nat) (children : Children)
    (result : Bool × Children × List Assignment) : Prop where
  inside : Inside result.2.2
  laid : result.1 = true → result.2.1.LaidFrom block offset
  sound : result.2.1.Sound
  sizes : result.2.1.sizes = children.sizes

theorem Inside.append {assigned assigned' : List Assignment} (h : Inside assigned)
    (h' : Inside assigned') : Inside (assigned ++ assigned') := by
  intro a ha
  rcases List.mem_append.mp ha with ha | ha
  · exact h a ha
  · exact h' a ha

theorem Inside.cons {a : Assignment} {assigned : List Assignment}
    (ha : a.offset + a.size ≤ a.limit) (h : Inside assigned) : Inside (a :: assigned) := by
  intro a' ha'
  rcases List.mem_cons.mp ha' with rfl | ha'
  · exact ha
  · exact h a' ha'

/-- An array that already points to its range has the right size: it does not
own the block, so that it was given this range before. -/
theorem assignBytes_eq {buf : Option Buffer} {block offset size : Nat}
    (hfits : ∀ b, buf = some b → b.owned = false → b.size = size)
    (hblock : ∀ b, buf = some b → b.owned = true → b.block ≠ block) :
    assignBytes buf block offset size = some ⟨block, offset, size, false⟩ := by
  cases buf with
  | none => rfl
  | some b =>
    unfold assignBytes
    dsimp only
    split
    · rename_i hsame
      have howned : b.owned = false := by
        cases howned : b.owned with
        | false => rfl
        | true => exact absurd hsame.1 (hblock b rfl howned)
      have hsize := hfits b rfl howned
      obtain ⟨block', offset', size', owned'⟩ := b
      simp_all
    · rfl

theorem IMessageField.buf_block_ne {field : IMessageField} {block : Nat}
    (h : block ∉ field.ownedBlocks) (b : Buffer) (hbuf : field.buf = some b)
    (howned : b.owned = true) : b.block ≠ block := by
  rintro rfl
  apply h
  cases field with
  | messageField dt size buf =>
    cases (hbuf : buf = some b)
    simp [ownedBlocks, howned]
  | message totalSize finished buf children =>
    cases (hbuf : buf = some b)
    simp [ownedBlocks, howned]

mutual

theorem IMessageField.assigned_fieldAssignBuffer (block offset limit : Nat) :
    (field : IMessageField) → field.Sound → field.Fits → block ∉ field.ownedBlocks →
      offset + field.fieldByteSize ≤ limit →
      field.Assigned block offset (field.fieldAssignBuffer block offset limit)
  | .messageField dt size buf, hsound, hfits, hblock, hlimit => by
      unfold IMessageField.fieldAssignBuffer
      split
      · exact ⟨by simp [Inside], by simp, hsound, hfits, rfl⟩
      · have hbuf := @assignBytes_eq _ _ offset _ hfits (IMessageField.buf_block_ne hblock)
        refine ⟨?_, fun _ => ⟨by simp [IMessageField.Laid], hbuf⟩,
          by simp [IMessageField.Sound], ?_, rfl⟩
        · exact Inside.cons hlimit (by simp [Inside])
        · intro b hb _
          cases hbuf.symm.trans hb
          rfl
  | .message totalSize finished buf children, hsound, hfits, hblock, hlimit => by
      have hbuf := @assignBytes_eq _ _ offset _ hfits (IMessageField.buf_block_ne hblock)
      have hchildren := children.assigned_assignFieldArrays block offset totalSize 0 hsound.2
        (fun h => hblock (by simp [IMessageField.ownedBlocks, h])) (by simpa using hsound.1.le)
      unfold IMessageField.fieldAssignBuffer
      refine ⟨Inside.cons hlimit hchildren.inside, fun hok => ⟨?_, hbuf⟩, ?_, ?_, rfl⟩
      · exact ⟨_, hbuf, rfl, by rw [hchildren.sizes]; exact hsound.1, hchildren.laid hok⟩
      · exact ⟨by rw [hchildren.sizes]; exact hsound.1, hchildren.sound⟩
      · intro b hb _
        cases hbuf.symm.trans hb
        rfl

theorem Children.assigned_assignFieldArrays (block offset totalSize assignAt : Nat) :
    (children : Children) → children.Sound → block ∉ children.ownedBlocks →
      assignAt + children.sizes.sum ≤ totalSize →
      children.Assigned block (offset + assignAt)
        (children.assignFieldArrays block offset totalSize assignAt)
  | .nil, _, _, _ => by
      unfold Children.assignFieldArrays
      exact ⟨by simp [Inside], by simp [Children.LaidFrom], by simp [Children.Sound], rfl⟩
  | .cons name field rest, hsound, hblock, hsum => by
      rw [Children.sizes_cons, List.sum_cons] at hsum
      have hfield := field.assigned_fieldAssignBuffer block (offset + assignAt)
        (offset + totalSize) hsound.2.1 hsound.1
        (fun h => hblock (by simp [Children.ownedBlocks, h])) (by omega)
      have hrest := rest.assigned_assignFieldArrays block offset totalSize
        (assignAt + field.fieldByteSize) hsound.2.2
        (fun h => hblock (by simp [Children.ownedBlocks, h])) (by omega)
      unfold Children.assignFieldArrays
      dsimp only
      split
      · -- the field has refused the buffer: the fields after it keep theirs
        rename_i hok
        have hok : (field.fieldAssignBuffer block (offset + assignAt)
            (offset + totalSize)).1 = false := by
          rcases hok with hok | hok
          · exact hok
          · omega
        refine ⟨hfield.inside, by simp, ⟨hfield.fits, hfield.sound, hsound.2.2⟩, ?_⟩
        rw [Children.sizes_cons, Children.sizes_cons, hfield.byteSize]
      · rename_i hok
        simp only [not_or, Bool.not_eq_false] at hok
        refine ⟨hfield.inside.append hrest.inside, fun hok' => ?_,
          ⟨hfield.fits, hfield.sound, hrest.sound⟩, ?_⟩
        · refine ⟨?_, (hfield.laid hok.1).1, ?_⟩
          · rw [hfield.byteSize]
            exact (hfield.laid hok.1).2
          · rw [hfield.byteSize, Nat.add_assoc]
            exact hrest.laid hok'
        · rw [Children.sizes_cons, Children.sizes_cons, hfield.byteSize, hrest.sizes]

end

/-! ## Calls that keep the sizes -/

/-- What a call leaves of a field: the message that the field is in still has
the right size. -/
structure IMessageField.Keeps (field field' : IMessageField) : Prop where
  sound : field'.Sound
  fits : field'.Fits
  byteSize : field'.fieldByteSize = field.fieldByteSize

/-- The array of a field that was not assigned a buffer. -/
def IMessageField.OwnsBuf (field : IMessageField) : Prop :=
  ∀ b, field.buf = some b → b.owned = true

theorem IMessageField.OwnsBuf.fits {field : IMessageField} (h : field.OwnsBuf) :
    field.Fits := by
  intro b hb howned
  rw [h b hb] at howned
  cases howned

theorem resizeArray_size {buf : Option Buffer} {size block : Nat} {b : Buffer}
    (h : resizeArray buf size block = some b) : b.size = size := by
  unfold resizeArray at h
  split at h
  · split at h
    · cases h; rfl
    · split at h
      · cases h; rfl
      · cases h
  · cases h; rfl

theorem resizeArray_owned {buf : Option Buffer} {size block : Nat} {b : Buffer}
    (h : resizeArray buf size block = some b) (hbuf : ∀ b', buf = some b' → b'.owned = true) :
    b.owned = true := by
  unfold resizeArray at h
  split at h
  · rw [if_pos (hbuf _ rfl)] at h
    cases h
    rfl
  · cases h
    rfl

namespace IMessageField

/-- What `finish` leaves of a field whose sizes agree. -/
structure Finished (field : IMessageField) (result : Bool × IMessageField × List Assignment) :
    Prop where
  inside : Inside result.2.2
  laid : result.1 = true → result.2.1.Laid
  keeps : field.Keeps result.2.1
  ownsBuf : field.OwnsBuf → result.2.1.OwnsBuf

theorem finished_finish {field : IMessageField} {block : Nat}
    {result : Bool × IMessageField × List Assignment} (hsound : field.Sound)
    (hfits : field.Fits) (h : field.finish block = some result) : field.Finished result := by
  cases field with
  | messageField dt size buf =>
    cases h
    exact ⟨by simp [Inside], fun _ => by simp [Laid], ⟨hsound, hfits, rfl⟩, id⟩
  | message totalSize finished buf children =>
    rw [finish] at h
    split at h
    · cases h
      exact ⟨by simp [Inside], by simp, ⟨hsound, hfits, rfl⟩, id⟩
    · obtain ⟨b, hb, h⟩ := Option.bind_eq_some_iff.mp h
      split at h
      · cases h
      · rename_i hblock
        cases h
        have hchildren := children.assigned_assignFieldArrays b.block b.offset totalSize 0
          hsound.2 hblock (by simpa using hsound.1.le)
        have hsize := resizeArray_size hb
        have hsum := (congrArg List.sum hchildren.sizes).trans hsound.1
        refine ⟨hchildren.inside, fun hok => ?_, ⟨⟨hsum, hchildren.sound⟩, ?_, rfl⟩, ?_⟩
        · exact ⟨b, rfl, hsize, hsum, hchildren.laid hok⟩
        · rintro b' hb' -
          cases hb'
          exact hsize
        · rintro hown b' hb'
          cases hb'
          exact resizeArray_owned hb hown

/-- The children of a message. -/
def children : IMessageField → Children
  | messageField _ _ _ => .nil
  | message _ _ _ children => children

/-- The call at the end of the path leaves the total sizes, there and above,
equal to the sums of the sizes. -/
def keepsSizes (path : List String) (target : IMessageField) : Action → Bool
  | .addField name dt size =>
      path.isEmpty || target.children.contains name || size * dt.size == 0
  | .addComposite name child =>
      path.isEmpty || target.children.contains name || child.fieldByteSize == 0
  | .addChild name child => target.children.contains name || child.fieldByteSize == 0
  | .removeChild name =>
      ((target.children.find? name).map fieldByteSize).getD 0 == 0
  | .removeChildren => target.children.sizes.sum == 0
  | .finish _ => true

end IMessageField

namespace Children

theorem sizes_append (name : String) (field : IMessageField) :
    (children : Children) →
      (children.append name field).sizes = children.sizes ++ [field.fieldByteSize]
  | nil => rfl
  | cons key field' rest => by
      rw [append, sizes_cons, sizes_cons, sizes_append name field rest, List.cons_append]

theorem sound_append (name : String) {field : IMessageField} (hfits : field.Fits)
    (hsound : field.Sound) :
    (children : Children) → children.Sound → (children.append name field).Sound
  | nil, _ => ⟨hfits, hsound, trivial⟩
  | cons _ _ rest, h => ⟨h.1, h.2.1, rest.sound_append name hfits hsound h.2.2⟩

/-- Erasing a child removes its size. -/
theorem sizes_erase (name : String) :
    (children : Children) →
      (children.erase name).sizes.sum +
        ((children.find? name).map IMessageField.fieldByteSize).getD 0 = children.sizes.sum
  | nil => rfl
  | cons key field rest => by
      unfold erase find?
      split
      · simp [add_comm]
      · have ih := rest.sizes_erase name
        rw [sizes_cons, sizes_cons, List.sum_cons, List.sum_cons]
        omega

theorem sound_erase (name : String) :
    (children : Children) → children.Sound → (children.erase name).Sound
  | nil, h => h
  | cons key field rest, h => by
      unfold erase
      split
      · exact h.2.2
      · exact ⟨h.1, h.2.1, rest.sound_erase name h.2.2⟩

/-- A child that keeps its size can be replaced. -/
theorem modify_sound {name : String} {g : IMessageField → Option IMessageField} :
    (children : Children) → {children' : Children} →
      (hg : ∀ child child', children.find? name = some child → child.Sound → child.Fits →
        g child = some child' → child.Keeps child') →
      children.modify name g = some children' → children.Sound →
      children'.Sound ∧ children'.sizes = children.sizes
  | nil, _, _, h, _ => by cases h
  | cons key field rest, children', hg, h, hsound => by
      unfold modify at h
      split at h
      · rename_i hkey
        obtain ⟨field', hfield, rfl⟩ := Option.map_eq_some_iff.mp h
        have hkeeps := hg field field' (by simp [find?, hkey]) hsound.2.1 hsound.1 hfield
        refine ⟨⟨hkeeps.fits, hkeeps.sound, hsound.2.2⟩, ?_⟩
        rw [sizes_cons, sizes_cons, hkeeps.byteSize]
      · rename_i hkey
        obtain ⟨rest', hrest, rfl⟩ := Option.map_eq_some_iff.mp h
        obtain ⟨hsound', hsizes⟩ := rest.modify_sound
          (fun child child' hfind => hg child child' (by simpa [find?, hkey] using hfind))
          hrest hsound.2.2
        refine ⟨⟨hsound.1, hsound.2.1, hsound'⟩, ?_⟩
        rw [sizes_cons, sizes_cons, hsizes]

end Children

namespace IMessageField

/-- What a call at the end of a path makes of the field there. -/
structure Applied (path : List String) (field field' : IMessageField) : Prop where
  sound : field'.Sound
  ownsBuf : field.OwnsBuf → field'.OwnsBuf
  keeps : path ≠ [] → field.Keeps field'

theorem applied_refl {path : List String} {field : IMessageField} (hsound : field.Sound)
    (hfits : field.Fits) : Applied path field field :=
  ⟨hsound, id, fun _ => ⟨hsound, hfits, rfl⟩⟩

/-- A call that replaces the children of a message and counts their sizes. -/
theorem applied_message {path : List String} {totalSize totalSize' : Nat} {finished : Bool}
    {buf : Option Buffer} {children children' : Children}
    (hfits : (message totalSize finished buf children).Fits) (hchildren : children'.Sound)
    (hsum : children'.sizes.sum = totalSize') (hkeeps : path ≠ [] → totalSize' = totalSize) :
    Applied path (message totalSize finished buf children)
      (message totalSize' finished buf children') := by
  refine ⟨⟨hsum, hchildren⟩, id, fun hpath => ?_⟩
  have hsize := hkeeps hpath
  exact ⟨⟨hsum, hchildren⟩, by rw [hsize]; exact hfits, hsize⟩

/-- A call that adds a child, with the size that it adds to the total size. -/
theorem applied_append {path : List String} {totalSize added : Nat} {finished : Bool}
    {buf : Option Buffer} {children : Children} {name : String} {child : IMessageField}
    (hsound : (message totalSize finished buf children).Sound)
    (hfits : (message totalSize finished buf children).Fits)
    (hchild : child.Sound ∧ child.Fits) (hadded : child.fieldByteSize = added)
    (hkeeps : path ≠ [] → added = 0) :
    Applied path (message totalSize finished buf children)
      (message (totalSize + added) finished buf (children.append name child)) := by
  have hchildren := Children.sound_append name hchild.2 hchild.1 children hsound.2
  refine applied_message hfits hchildren ?_ fun hpath => ?_
  · rw [Children.sizes_append, List.sum_append, List.sum_singleton, hsound.1, hadded]
  · rw [hkeeps hpath, Nat.add_zero]

theorem applied_apply {path : List String} {target target' : IMessageField} {a : Action}
    (hsound : target.Sound) (hfits : target.Fits)
    (hchild : ∀ child, a.child? = some child → child.Sound ∧ child.Fits)
    (ha : keepsSizes path target a = true) (h : apply a target = some target') :
    Applied path target target' := by
  cases target with
  | messageField dt size buf =>
    -- only `finish` is defined on a field that has no children
    cases a <;> cases h
    exact applied_refl hsound hfits
  | message totalSize finished buf children =>
    cases a with
    | addField name dt size =>
      simp only [keepsSizes, IMessageField.children, Bool.or_eq_true, List.isEmpty_iff,
        beq_iff_eq] at ha
      simp only [apply, addField] at h
      split at h
      · cases h
        exact applied_refl hsound hfits
      · rename_i hcontains
        have hkeeps (hpath : path ≠ []) : size * dt.size = 0 := by
          simpa [hpath, hcontains] using ha
        have hfield : (messageField dt size none).Sound ∧ (messageField dt size none).Fits :=
          ⟨trivial, by simp [Fits, IMessageField.buf]⟩
        split at h
        · cases h
          exact applied_append hsound hfits hfield rfl hkeeps
        · -- the types without an array have no size
          rename_i harray
          cases h
          have hsize : size * dt.size = 0 := by
            rw [DataType.size_eq_zero_of_hasArray (by simpa using harray), Nat.mul_zero]
          exact applied_append hsound hfits hfield hsize fun _ => rfl
    | addComposite name child =>
      simp only [keepsSizes, IMessageField.children, Bool.or_eq_true, List.isEmpty_iff,
        beq_iff_eq] at ha
      simp only [apply, addComposite] at h
      split at h
      · cases h
        exact applied_refl hsound hfits
      · rename_i hcontains
        cases h
        exact applied_append hsound hfits (hchild child rfl) rfl fun hpath => by
          simpa [hpath, hcontains] using ha
    | addChild name child =>
      simp only [keepsSizes, IMessageField.children, Bool.or_eq_true, beq_iff_eq] at ha
      simp only [apply, addChild] at h
      split at h
      · cases h
        exact applied_refl hsound hfits
      · rename_i hcontains
        cases h
        have hsize : child.fieldByteSize = 0 := by simpa [hcontains] using ha
        exact applied_append hsound hfits (hchild child rfl) hsize fun _ => rfl
    | removeChild name =>
      simp only [keepsSizes, IMessageField.children, beq_iff_eq] at ha
      cases h
      have hsizes := children.sizes_erase name
      rw [ha, hsound.1, Nat.add_zero] at hsizes
      exact applied_message hfits (children.sound_erase name hsound.2) hsizes fun _ => rfl
    | removeChildren =>
      simp only [keepsSizes, IMessageField.children, beq_iff_eq] at ha
      cases h
      exact applied_message hfits trivial (by rw [← hsound.1, ha]; rfl) fun _ => rfl
    | finish block =>
      obtain ⟨result, hresult, rfl⟩ := Option.map_eq_some_iff.mp h
      have hfinished := finished_finish hsound hfits hresult
      exact ⟨hfinished.keeps.sound, hfinished.ownsBuf, fun _ => hfinished.keeps⟩

/-- A call at the end of a path below a field: the messages on the path keep
their sizes when the field at its end does. -/
theorem keeps_modifyAt {g : IMessageField → Option IMessageField} {path : List String} :
    {field target field' : IMessageField} → field.atPath path = some target →
      (∀ target', target.Sound → target.Fits → g target = some target' →
        target.Keeps target') →
      field.modifyAt g path = some field' → field.Sound → field.Fits → field.Keeps field' := by
  induction path with
  | nil =>
    intro field target field' htarget hg h hsound hfits
    cases htarget
    exact hg field' hsound hfits h
  | cons name path ih =>
    intro field target field' htarget hg h hsound hfits
    cases field with
    | messageField dt size buf => cases h
    | message totalSize finished buf children =>
      obtain ⟨children', hmodify, rfl⟩ := Option.map_eq_some_iff.mp h
      obtain ⟨hchildren, hsizes⟩ := children.modify_sound
        (fun child child' hfind hsound' hfits' hchild =>
          ih (by simpa [atPath, hfind] using htarget) hg hchild hsound' hfits')
        hmodify hsound.2
      have hsum := (congrArg List.sum hsizes).trans hsound.1
      exact ⟨⟨hsum, hchildren⟩, hfits, rfl⟩

theorem modifyAt_ownsBuf {g : IMessageField → Option IMessageField} {name : String}
    {path : List String} {field field' : IMessageField}
    (h : field.modifyAt g (name :: path) = some field') (hown : field.OwnsBuf) :
    field'.OwnsBuf := by
  cases field with
  | messageField dt size buf => cases h
  | message totalSize finished buf children =>
    obtain ⟨children', -, rfl⟩ := Option.map_eq_some_iff.mp h
    exact hown

/-- In every run of such calls the total sizes are the sums of the sizes of the
children, and only the arrays below the field point to other buffers. -/
theorem sound_of_reachable {field : IMessageField} (h : ReachableBy keepsSizes field) :
    field.Sound ∧ field.OwnsBuf := by
  induction h with
  | createField => exact ⟨trivial, by simp [OwnsBuf, createField, IMessageField.buf]⟩
  | buildArray dt size => exact ⟨trivial, by simp [OwnsBuf, IMessageField.buf]⟩
  | createMessage =>
    exact ⟨⟨rfl, trivial⟩, by simp [OwnsBuf, createMessage, IMessageField.buf]⟩
  | @call field target field' path a h htarget ha hchild hstep ih ihchild =>
    obtain ⟨hsound, hown⟩ := ih
    have hchild' (child : IMessageField) (hc : a.child? = some child) :
        child.Sound ∧ child.Fits := (ihchild child hc).imp_right OwnsBuf.fits
    cases path with
    | nil =>
      cases htarget
      have happlied := applied_apply hsound hown.fits hchild' ha hstep
      exact ⟨happlied.sound, happlied.ownsBuf hown⟩
    | cons name path =>
      have hkeeps := keeps_modifyAt htarget
        (fun target' hsound' hfits' htarget' =>
          (applied_apply hsound' hfits' hchild' ha htarget').keeps (List.cons_ne_nil _ _))
        hstep hsound hown.fits
      exact ⟨hkeeps.sound, modifyAt_ownsBuf hstep hown⟩

end IMessageField

/-! ## The layout -/

/-- The addresses of a buffer in its block. -/
def Buffer.bytes (b : Buffer) : List Nat :=
  List.range' b.offset b.size

/-- The buffers of the children, in order. -/
def Children.bufs : Children → List Buffer
  | .nil => []
  | .cons _ field rest => field.buf.toList ++ rest.bufs

namespace IMessageField

/-- What is expected of a call of `finish`: it gives no range past the end of a
buffer and, when it returns `true`, the message has the size of its children
and they cover its buffer in order. -/
def LaysOut (message : IMessageField) (block : Nat) : Prop :=
  ∀ ok message' assigned, message.finish block = some (ok, message', assigned) →
    Inside assigned ∧
      (ok = true → message'.Laid ∧ message'.fieldByteSize = message'.children.sizes.sum ∧
        ∃ b, message'.buf = some b ∧ b.size = message'.fieldByteSize ∧
          (message'.children.bufs.map Buffer.bytes).flatten = b.bytes)

/-- A call on the field itself. -/
theorem ReachableBy.call_self {p : List String → IMessageField → Action → Bool}
    {field field' : IMessageField} (a : Action) (h : ReachableBy p field)
    (ha : p [] field a = true)
    (hchild : ∀ child, a.child? = some child → ReachableBy p child)
    (hstep : apply a field = some field') : ReachableBy p field' :=
  @ReachableBy.call p field field field' [] a h rfl ha hchild hstep

/-- `add_child` does not count the size of the field: its four bytes are taken
from a buffer of none before the bound is checked. -/
theorem not_inside_of_addChild :
    ∃ field message' assigned, ReachableBy (fun _ _ _ => true) field ∧
      field.finish 0 = some (false, message', assigned) ∧ ¬ Inside assigned := by
  have hadd := ReachableBy.call_self (.addChild "id" (messageField .int 1 none))
    (ReachableBy.createMessage (p := fun _ _ _ => true)) rfl
    (by
      intro child hchild
      cases hchild
      exact ReachableBy.buildArray .int 1) rfl
  refine ⟨_, _, _, hadd, rfl, fun h => ?_⟩
  exact absurd (h ⟨0, 4, 0⟩ (by decide)) (by decide)

end IMessageField

end Sihd.Util
