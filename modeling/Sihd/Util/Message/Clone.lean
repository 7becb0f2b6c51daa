import Sihd.Util.Message.Transfer

/-!
# Clones of messages

`clone` builds a field from the number of elements that its array has, which is
none before the field gets its memory. The blocks that the allocator gives to
the clones are `block` and the ones after it.

The layout of a field is the field without its memory.
-/

namespace Sihd.Util

/-- `arr->size()`. -/
def arraySize (dt : DataType) (buf : Option Buffer) : Nat :=
  match buf with
  | none => 0
  | some b => b.size / dt.size

mutual

/-- `clone`: the clone, if any, and the next block of the allocator. -/
def IMessageField.clone (block : Nat) : IMessageField → Option IMessageField × Nat
  | .messageField dt _ buf =>
      (some (if dt.hasArray then .messageField dt (arraySize dt buf) none else .createField), block)
  | .message _ finished _ children =>
      match children.cloneInto block .createMessage with
      | (none, block) => (none, block)
      | (some cloned, block) =>
          if finished then
            match cloned.finish block with
            | some (true, cloned, _) => (some cloned, block + 1)
            | _ => (none, block + 1)
          else (some cloned, block)

/-- The loop of `Message::clone`, which does not look at what `add_field` returns. -/
def Children.cloneInto (block : Nat) (cloned : IMessageField) :
    Children → Option IMessageField × Nat
  | .nil => (some cloned, block)
  | .cons name field rest =>
      match field.clone block with
      | (none, block) => (none, block)
      | (some child, block) =>
          rest.cloneInto block
            (((IMessageField.addComposite name child cloned).map Prod.snd).getD cloned)

end

mutual

def IMessageField.layout : IMessageField → IMessageField
  | .messageField dt size _ => .messageField dt size none
  | .message totalSize finished _ children => .message totalSize finished none children.layout

def Children.layout : Children → Children
  | .nil => .nil
  | .cons name field rest => .cons name field.layout rest.layout

end

mutual

/-- The children of a message are the entries of a map. -/
def IMessageField.WellNamed : IMessageField → Prop
  | .messageField _ _ _ => True
  | .message _ _ _ children => children.WellNamed

def Children.WellNamed : Children → Prop
  | .nil => True
  | .cons name field rest => rest.contains name = false ∧ field.WellNamed ∧ rest.WellNamed

end

mutual

/-- A field that can be given its memory. -/
def IMessageField.HasElements : IMessageField → Prop
  | .messageField dt size _ => size ≠ 0 ∧ dt.hasArray = true
  | .message _ _ _ children => children.HaveElements

def Children.HaveElements : Children → Prop
  | .nil => True
  | .cons _ field rest => field.HasElements ∧ rest.HaveElements

end

mutual

/-- The arrays have the sizes of their fields, the total sizes are the sums of the sizes of the
children, and the fields of a finished message have elements. -/
def IMessageField.Cloneable : IMessageField → Prop
  | .messageField dt size buf =>
      if dt.hasArray then arraySize dt buf = size else dt = .none ∧ size = 0
  | .message totalSize finished _ children =>
      children.AllCloneable ∧ children.sizes.sum = totalSize ∧
        (finished = true → children.HaveElements)

def Children.AllCloneable : Children → Prop
  | .nil => True
  | .cons _ field rest => field.Cloneable ∧ rest.AllCloneable

end

/-- The clone has the same layout, and is finished with the same result. -/
def IMessageField.KeepsLayout (field : IMessageField) (block : Nat) : Prop :=
  ∃ cloned next, field.clone block = (some cloned, next) ∧ cloned.layout = field.layout ∧
    (field.isFinished = false →
      (∀ block', next ≤ block' → (cloned.finish block').isSome = true) ∧
        ∀ b b' result result', field.finish b = some result → cloned.finish b' = some result' →
          result.1 = result'.1)

/-! ### Names -/

namespace Children

theorem contains_erase_of_contains (name key : String) :
    (children : Children) → (children.erase name).contains key = true →
      children.contains key = true
  | nil, h => h
  | cons name' field rest, h => by
      rw [erase] at h
      rw [contains, Bool.or_eq_true]
      split at h
      · exact .inr h
      · rw [contains, Bool.or_eq_true] at h
        exact h.imp_right (contains_erase_of_contains name key rest)

theorem wellNamed_erase (name : String) :
    (children : Children) → children.WellNamed → (children.erase name).WellNamed
  | nil, h => h
  | cons name' field rest, h => by
      rw [erase]
      split
      · exact h.2.2
      · refine ⟨?_, h.2.1, rest.wellNamed_erase name h.2.2⟩
        rw [Bool.eq_false_iff]
        intro hcontains
        cases h.1.symm.trans (contains_erase_of_contains name name' rest hcontains)

theorem contains_append (name key : String) (field : IMessageField) :
    (children : Children) →
      (children.append name field).contains key = (children.contains key || name == key)
  | nil => by simp [append, contains]
  | cons _ _ rest => by
      rw [append, contains, contains, contains_append name key field rest, Bool.or_assoc]

theorem wellNamed_append {name : String} {field : IMessageField} (hfield : field.WellNamed) :
    (children : Children) → children.contains name = false → children.WellNamed →
      (children.append name field).WellNamed
  | nil, _, _ => ⟨rfl, hfield, trivial⟩
  | cons name' field' rest, hname, h => by
      rw [contains, Bool.or_eq_false_iff, beq_eq_false_iff_ne] at hname
      refine ⟨?_, h.2.1, rest.wellNamed_append hfield hname.2 h.2.2⟩
      rw [contains_append, h.1, Bool.false_or, beq_eq_false_iff_ne]
      exact hname.1.symm

theorem wellNamed_modify {name : String} {g : IMessageField → Option IMessageField}
    (hg : ∀ child child', child.WellNamed → g child = some child' → child'.WellNamed) :
    (children : Children) → {children' : Children} → children.WellNamed →
      children.modify name g = some children' →
        children'.WellNamed ∧ ∀ key, children'.contains key = children.contains key
  | nil, _, _, hmodify => by cases hmodify
  | cons name' field rest, children', h, hmodify => by
      rw [modify] at hmodify
      split at hmodify
      · obtain ⟨field', hfield, rfl⟩ := Option.map_eq_some_iff.mp hmodify
        exact ⟨⟨h.1, hg field field' h.2.1 hfield, h.2.2⟩, fun key => rfl⟩
      · obtain ⟨rest', hrest, rfl⟩ := Option.map_eq_some_iff.mp hmodify
        obtain ⟨hnamed, hcontains⟩ := rest.wellNamed_modify hg h.2.2 hrest
        refine ⟨⟨(hcontains name').trans h.1, h.2.1, hnamed⟩, fun key => ?_⟩
        rw [contains, contains, hcontains]

theorem contains_layout (key : String) :
    (children : Children) → children.layout.contains key = children.contains key
  | nil => rfl
  | cons _ _ rest => by rw [layout, contains, contains, contains_layout key rest]

end Children

mutual

theorem IMessageField.wellNamed_layout_iff :
    (field : IMessageField) → (field.layout.WellNamed ↔ field.WellNamed)
  | .messageField _ _ _ => Iff.rfl
  | .message _ _ _ children => children.wellNamed_layout_iff

theorem Children.wellNamed_layout_iff :
    (children : Children) → (children.layout.WellNamed ↔ children.WellNamed)
  | .nil => Iff.rfl
  | .cons name field rest => by
      rw [Children.layout, Children.WellNamed, rest.contains_layout, field.wellNamed_layout_iff,
        rest.wellNamed_layout_iff, Children.WellNamed]

end

/-! ### Layouts -/

mutual

theorem IMessageField.fieldByteSize_layout :
    (field : IMessageField) → field.layout.fieldByteSize = field.fieldByteSize
  | .messageField _ _ _ => rfl
  | .message _ _ _ _ => rfl

theorem Children.sizes_layout : (children : Children) → children.layout.sizes = children.sizes
  | .nil => rfl
  | .cons name field rest => by
      rw [Children.layout, Children.sizes_cons, Children.sizes_cons, rest.sizes_layout,
        field.fieldByteSize_layout]

end

mutual

/-- The memory that fields are given is no part of their layout. -/
theorem IMessageField.layout_fieldAssignBuffer (block offset limit : Nat) :
    (field : IMessageField) →
      (field.fieldAssignBuffer block offset limit).2.1.layout = field.layout
  | .messageField dt size buf => by
      rw [IMessageField.fieldAssignBuffer]
      split <;> rfl
  | .message totalSize finished buf children => by
      have ih := children.layout_assignFieldArrays block offset totalSize 0
      rw [IMessageField.fieldAssignBuffer]
      dsimp only
      rw [IMessageField.layout, ih, IMessageField.layout]

theorem Children.layout_assignFieldArrays (block offset totalSize assignAt : Nat) :
    (children : Children) →
      (children.assignFieldArrays block offset totalSize assignAt).2.1.layout = children.layout
  | .nil => by rw [Children.assignFieldArrays]
  | .cons name field rest => by
      have hfield := field.layout_fieldAssignBuffer block (offset + assignAt) (offset + totalSize)
      have hrest := rest.layout_assignFieldArrays block offset totalSize
        (assignAt + field.fieldByteSize)
      rw [Children.assignFieldArrays]
      dsimp only
      split
      · dsimp only
        rw [Children.layout, hfield, Children.layout]
      · dsimp only
        rw [Children.layout, hfield, hrest, Children.layout]

end

mutual

/-- Whether `field_assign_buffer` succeeds. -/
def IMessageField.assignable : IMessageField → Bool
  | .messageField dt size _ => size ≠ 0 ∧ dt.hasArray
  | .message totalSize _ _ children => children.assignableFrom totalSize 0

def Children.assignableFrom (totalSize assignAt : Nat) : Children → Bool
  | .nil => true
  | .cons _ field rest =>
      field.assignable && assignAt + field.fieldByteSize ≤ totalSize &&
        rest.assignableFrom totalSize (assignAt + field.fieldByteSize)

end

mutual

theorem IMessageField.fst_fieldAssignBuffer (block offset limit : Nat) :
    (field : IMessageField) →
      (field.fieldAssignBuffer block offset limit).1 = field.assignable
  | .messageField dt size buf => by
      rw [IMessageField.fieldAssignBuffer, IMessageField.assignable]
      cases dt <;> by_cases hsize : size = 0 <;> simp [hsize, DataType.hasArray]
  | .message totalSize finished buf children => by
      rw [IMessageField.fieldAssignBuffer, IMessageField.assignable]
      exact children.fst_assignFieldArrays block offset totalSize 0

theorem Children.fst_assignFieldArrays (block offset totalSize assignAt : Nat) :
    (children : Children) → (children.assignFieldArrays block offset totalSize assignAt).1 =
      children.assignableFrom totalSize assignAt
  | .nil => by rw [Children.assignFieldArrays, Children.assignableFrom]
  | .cons name field rest => by
      have hfield := field.fst_fieldAssignBuffer block (offset + assignAt) (offset + totalSize)
      have hrest := rest.fst_assignFieldArrays block offset totalSize
        (assignAt + field.fieldByteSize)
      rw [Children.assignFieldArrays, Children.assignableFrom]
      dsimp only
      rw [hfield]
      split
      · rename_i hfails
        have hfalse : (field.assignable && decide (assignAt + field.fieldByteSize ≤ totalSize)) =
            false := by
          rw [Bool.and_eq_false_iff, decide_eq_false_iff_not, not_le]
          exact hfails
        rw [hfalse, Bool.false_and]
      · rename_i hgoes
        rw [not_or, Bool.not_eq_false, not_lt] at hgoes
        rw [hgoes.1, decide_eq_true hgoes.2, Bool.true_and, Bool.true_and]
        exact hrest

end

mutual

theorem IMessageField.assignable_layout :
    (field : IMessageField) → field.layout.assignable = field.assignable
  | .messageField _ _ _ => rfl
  | .message totalSize _ _ children => children.assignableFrom_layout totalSize 0

theorem Children.assignableFrom_layout (totalSize assignAt : Nat) :
    (children : Children) → children.layout.assignableFrom totalSize assignAt =
      children.assignableFrom totalSize assignAt
  | .nil => rfl
  | .cons name field rest => by
      rw [Children.layout, Children.assignableFrom, Children.assignableFrom,
        field.assignable_layout, field.fieldByteSize_layout, rest.assignableFrom_layout]

end

mutual

/-- When the total sizes are enough, every field with elements can be given its memory. -/
theorem IMessageField.assignable_iff :
    (field : IMessageField) → field.Cloneable →
      (field.assignable = true ↔ field.HasElements)
  | .messageField dt size buf, _ => decide_eq_true_iff
  | .message totalSize finished buf children, h =>
      children.assignableFrom_iff totalSize 0 h.1 (by rw [Nat.zero_add, h.2.1])

theorem Children.assignableFrom_iff (totalSize assignAt : Nat) :
    (children : Children) → children.AllCloneable →
      assignAt + children.sizes.sum ≤ totalSize →
        (children.assignableFrom totalSize assignAt = true ↔ children.HaveElements)
  | .nil, _, _ => iff_of_true rfl trivial
  | .cons name field rest, h, hfits => by
      rw [Children.sizes_cons, List.sum_cons] at hfits
      have hle : assignAt + field.fieldByteSize ≤ totalSize := by omega
      rw [Children.assignableFrom, Bool.and_eq_true, Bool.and_eq_true, decide_eq_true_iff,
        and_iff_left hle, field.assignable_iff h.1,
        rest.assignableFrom_iff totalSize _ h.2 (by omega), Children.HaveElements]

end

/-! ### The names of messages that calls build -/

namespace IMessageField

theorem wellNamed_apply {target target' : IMessageField} {a : Action} (h : target.WellNamed)
    (hchild : ∀ child, a.child? = some child → child.WellNamed)
    (hstep : apply a target = some target') : target'.WellNamed := by
  cases target with
  | messageField dt size buf =>
    cases a <;> cases hstep
    exact trivial
  | message totalSize finished buf children =>
    cases a with
    | addField name dt size =>
      simp only [apply, addField] at hstep
      split at hstep
      · cases hstep
        exact h
      · rename_i hcontains
        have hfield : (messageField dt size none).WellNamed := trivial
        have happend := children.wellNamed_append hfield (Bool.not_eq_true _ ▸ hcontains) h
        split at hstep <;> cases hstep <;> exact happend
    | addComposite name child =>
      simp only [apply, addComposite] at hstep
      split at hstep
      · cases hstep
        exact h
      · rename_i hcontains
        cases hstep
        exact children.wellNamed_append (hchild child rfl) (Bool.not_eq_true _ ▸ hcontains) h
    | addChild name child =>
      simp only [apply, addChild] at hstep
      split at hstep
      · cases hstep
        exact h
      · rename_i hcontains
        cases hstep
        exact children.wellNamed_append (hchild child rfl) (Bool.not_eq_true _ ▸ hcontains) h
    | removeChild name =>
      cases hstep
      exact children.wellNamed_erase name h
    | removeChildren =>
      cases hstep
      exact trivial
    | finish block =>
      obtain ⟨result, hresult, rfl⟩ := Option.map_eq_some_iff.mp hstep
      rw [finish] at hresult
      split at hresult
      · cases hresult
        exact h
      · obtain ⟨b, -, hresult⟩ := Option.bind_eq_some_iff.mp hresult
        split at hresult
        · cases hresult
        · cases hresult
          refine (Children.wellNamed_layout_iff _).mp ?_
          rw [children.layout_assignFieldArrays]
          exact children.wellNamed_layout_iff.mpr h

theorem wellNamed_modifyAt {g : IMessageField → Option IMessageField}
    (hg : ∀ target target', target.WellNamed → g target = some target' → target'.WellNamed)
    {path : List String} : {field field' : IMessageField} → field.WellNamed →
      field.modifyAt g path = some field' → field'.WellNamed := by
  induction path with
  | nil => exact fun h hmodify => hg _ _ h hmodify
  | cons name path ih =>
    intro field field' h hmodify
    cases field with
    | messageField dt size buf => cases hmodify
    | message totalSize finished buf children =>
      obtain ⟨children', hchildren, rfl⟩ := Option.map_eq_some_iff.mp hmodify
      exact (children.wellNamed_modify (fun _ _ => ih) h hchildren).1

/-- The names of the children are different in every message that calls build. -/
theorem wellNamed_of_reachable {p : List String → IMessageField → Action → Bool}
    {field : IMessageField} (h : ReachableBy p field) : field.WellNamed := by
  induction h with
  | createField => exact trivial
  | buildArray dt size => exact trivial
  | createMessage => exact trivial
  | call h htarget ha hchild hstep ih ihchild =>
    exact wellNamed_modifyAt (fun _ _ hnamed => wellNamed_apply hnamed ihchild) ih hstep

/-- A name that was taken is given again once its field is removed. -/
theorem wellNamed_two_fields :
    (message 9 false none (.cons "name" (messageField .char 8 none)
      (.cons "id" (messageField .char 1 none) .nil))).WellNamed := by
  have hid := ReachableBy.call_self (.addField "id" .int 0)
    (ReachableBy.createMessage (p := fun _ _ _ => true)) rfl (by simp [Action.child?]) rfl
  have hname := ReachableBy.call_self (.addField "name" .char 8) hid rfl
    (by simp [Action.child?]) rfl
  have hremove := ReachableBy.call_self (.removeChild "id") hname rfl
    (by simp [Action.child?]) rfl
  exact wellNamed_of_reachable (ReachableBy.call_self (.addField "id" .char 1) hremove rfl
    (by simp [Action.child?]) rfl)

end IMessageField

/-! ### The children of a clone -/

/-- The clones of the children, in order. -/
def Children.clones (block : Nat) : Children → Option Children × Nat
  | .nil => (some .nil, block)
  | .cons name field rest =>
      match field.clone block with
      | (none, block) => (none, block)
      | (some child, block) => ((rest.clones block).1.map (.cons name child), (rest.clones block).2)

def Children.concat : Children → Children → Children
  | .nil, children => children
  | .cons name field rest, children => .cons name field (rest.concat children)

theorem Children.append_concat (name : String) (field : IMessageField) (rest : Children) :
    (children : Children) →
      (children.append name field).concat rest = children.concat (.cons name field rest)
  | .nil => rfl
  | .cons _ _ children => by
      rw [append, concat, concat, append_concat name field rest children]

theorem Children.concat_nil : (children : Children) → children.concat .nil = children
  | .nil => rfl
  | .cons _ _ rest => by rw [concat, rest.concat_nil]

/-- The loop adds the clones of the children behind those that are there. -/
theorem Children.cloneInto_message (totalSize : Nat) (added : Children) (block : Nat) :
    (children : Children) → children.WellNamed →
      (∀ name, children.contains name = true → added.contains name = false) →
      children.cloneInto block (.message totalSize false none added) =
        ((children.clones block).1.map fun clones =>
          .message (totalSize + clones.sizes.sum) false none (added.concat clones),
          (children.clones block).2)
  | .nil, _, _ => by
      rw [cloneInto, clones]
      dsimp only [Option.map_some]
      rw [concat_nil]
      rfl
  | .cons name field rest, h, hnew => by
      rw [cloneInto, clones]
      cases field.clone block with
      | mk child block =>
        cases child with
        | none => rfl
        | some child =>
          have hname : added.contains name = false :=
            hnew name (by rw [contains, beq_self_eq_true, Bool.true_or])
          have hadd : ((IMessageField.addComposite name child
              (.message totalSize false none added)).map Prod.snd).getD
                (.message totalSize false none added) =
              .message (totalSize + child.fieldByteSize) false none (added.append name child) := by
            rw [IMessageField.addComposite, if_neg (hname ▸ Bool.false_ne_true)]
            rfl
          have hnew' : ∀ key, rest.contains key = true →
              (added.append name child).contains key = false := by
            intro key hkey
            rw [contains_append, hnew key (by rw [contains, hkey, Bool.or_true]), Bool.false_or,
              beq_eq_false_iff_ne]
            rintro rfl
            rw [h.1] at hkey
            cases hkey
          dsimp only
          rw [hadd, cloneInto_message _ _ block rest h.2.2 hnew', Option.map_map]
          refine Prod.ext (Option.map_congr fun clones _ => ?_) rfl
          dsimp only [Function.comp]
          rw [append_concat, sizes_cons, List.sum_cons, Nat.add_assoc]

/-- A message without its memory. -/
theorem IMessageField.clone_message (totalSize : Nat) (finished : Bool) (buf : Option Buffer)
    {children : Children} (h : children.WellNamed) (block : Nat) :
    (message totalSize finished buf children).clone block =
      match children.clones block with
      | (none, block) => (none, block)
      | (some clones, block) =>
          if finished then
            match (message clones.sizes.sum false none clones).finish block with
            | some (true, cloned, _) => (some cloned, block + 1)
            | _ => (none, block + 1)
          else (some (message clones.sizes.sum false none clones), block) := by
  rw [clone, createMessage, Children.cloneInto_message 0 .nil block children h fun _ _ => rfl]
  cases children.clones block with
  | mk clones block =>
    cases clones with
    | none => rfl
    | some clones =>
      dsimp only [Option.map_some]
      rw [Nat.zero_add]
      rfl

/-! ### The blocks of a clone -/

theorem block_mem_of_assignBytes {buf : Option Buffer} {block offset size k : Nat}
    (h : k ∈ ((assignBytes buf block offset size).filter (·.owned)).toList.map (·.block)) :
    k ∈ (buf.filter (·.owned)).toList.map (·.block) := by
  cases buf with
  | none => cases h
  | some b =>
    rw [assignBytes] at h
    split at h
    · exact h
    · cases h

mutual

/-- Fields that are given memory own no more blocks than before. -/
theorem IMessageField.ownedBlocks_fieldAssignBuffer (block offset limit : Nat) {k : Nat} :
    (field : IMessageField) →
      k ∈ (field.fieldAssignBuffer block offset limit).2.1.ownedBlocks → k ∈ field.ownedBlocks
  | .messageField dt size buf, h => by
      rw [IMessageField.fieldAssignBuffer] at h
      split at h
      · exact h
      · exact block_mem_of_assignBytes h
  | .message totalSize finished buf children, h => by
      rw [IMessageField.fieldAssignBuffer] at h
      dsimp only at h
      rw [IMessageField.ownedBlocks, List.mem_append] at h ⊢
      exact h.imp block_mem_of_assignBytes
        (children.ownedBlocks_assignFieldArrays block offset totalSize 0)

theorem Children.ownedBlocks_assignFieldArrays (block offset totalSize assignAt : Nat) {k : Nat} :
    (children : Children) →
      k ∈ (children.assignFieldArrays block offset totalSize assignAt).2.1.ownedBlocks →
        k ∈ children.ownedBlocks
  | .nil, h => by rwa [Children.assignFieldArrays] at h
  | .cons name field rest, h => by
      rw [Children.assignFieldArrays] at h
      dsimp only at h
      split at h
      · rw [Children.ownedBlocks, List.mem_append] at h ⊢
        exact h.imp_left (field.ownedBlocks_fieldAssignBuffer _ _ _)
      · rw [Children.ownedBlocks, List.mem_append] at h ⊢
        exact h.imp (field.ownedBlocks_fieldAssignBuffer _ _ _)
          (rest.ownedBlocks_assignFieldArrays _ _ _ _)

end

/-- A message without memory is finished in a block that none of its fields owns. -/
theorem IMessageField.finish_message {block : Nat} {children : Children}
    (h : block ∉ children.ownedBlocks) (totalSize : Nat) :
    ∃ children' assigned, (message totalSize false none children).finish block =
        some (children.assignableFrom totalSize 0,
          message totalSize (children.assignableFrom totalSize 0)
            (some ⟨block, 0, totalSize, true⟩) children', assigned) ∧
      children'.layout = children.layout ∧
        ∀ k ∈ children'.ownedBlocks, k ∈ children.ownedBlocks := by
  refine ⟨(children.assignFieldArrays block 0 totalSize 0).2.1,
    (children.assignFieldArrays block 0 totalSize 0).2.2, ?_,
    children.layout_assignFieldArrays block 0 totalSize 0,
    fun k hk => children.ownedBlocks_assignFieldArrays block 0 totalSize 0 hk⟩
  rw [finish, resizeArray, if_neg Bool.false_ne_true, Option.bind_some, if_neg h]
  dsimp only
  rw [children.fst_assignFieldArrays]

mutual

/-- The blocks that a clone owns are those that the allocator gave meanwhile. -/
theorem IMessageField.lt_of_mem_clone (block : Nat) :
    (field : IMessageField) → field.WellNamed → block ≤ (field.clone block).2 ∧
      ∀ cloned, (field.clone block).1 = some cloned →
        ∀ k ∈ cloned.ownedBlocks, k < (field.clone block).2
  | .messageField dt size buf, _ => by
      rw [IMessageField.clone]
      refine ⟨le_rfl, fun cloned heq k hk => ?_⟩
      obtain rfl := Option.some.inj heq
      split at hk <;> cases hk
  | .message totalSize finished buf children, h => by
      obtain ⟨hle, hlt⟩ := children.lt_of_mem_clones block h
      rw [IMessageField.clone_message totalSize finished buf h]
      revert hle hlt
      cases children.clones block with
      | mk clones next =>
        cases clones with
        | none => exact fun hle _ => ⟨hle, nofun⟩
        | some clones =>
          intro hle hlt
          have hmem : next ∉ clones.ownedBlocks := fun hmem => lt_irrefl _ (hlt clones rfl _ hmem)
          obtain ⟨children', assigned, hfinish, -, howned⟩ :=
            IMessageField.finish_message hmem clones.sizes.sum
          dsimp only at hle ⊢
          cases finished with
          | false =>
            refine ⟨hle, fun cloned heq k hk => ?_⟩
            obtain rfl := Option.some.inj heq
            exact hlt clones rfl k hk
          | true =>
            rw [if_pos rfl, hfinish]
            cases clones.assignableFrom clones.sizes.sum 0 with
            | false => exact ⟨Nat.le_succ_of_le hle, nofun⟩
            | true =>
              refine ⟨Nat.le_succ_of_le hle, fun cloned heq k hk => ?_⟩
              obtain rfl := Option.some.inj heq
              rcases List.mem_cons.mp hk with rfl | hk
              · exact Nat.lt_succ_self _
              · exact Nat.lt_succ_of_lt (hlt clones rfl k (howned k hk))

theorem Children.lt_of_mem_clones (block : Nat) :
    (children : Children) → children.WellNamed → block ≤ (children.clones block).2 ∧
      ∀ clones, (children.clones block).1 = some clones →
        ∀ k ∈ clones.ownedBlocks, k < (children.clones block).2
  | .nil, _ => by
      rw [Children.clones]
      refine ⟨le_rfl, fun clones heq k hk => ?_⟩
      obtain rfl := Option.some.inj heq
      cases hk
  | .cons name field rest, h => by
      obtain ⟨hle, hlt⟩ := field.lt_of_mem_clone block h.2.1
      rw [Children.clones]
      revert hle hlt
      cases field.clone block with
      | mk child next =>
        cases child with
        | none => exact fun hle _ => ⟨hle, nofun⟩
        | some child =>
          intro hle hlt
          obtain ⟨hle', hlt'⟩ := rest.lt_of_mem_clones next h.2.2
          refine ⟨hle.trans hle', fun clones heq k hk => ?_⟩
          obtain ⟨clones', hclones, rfl⟩ := Option.map_eq_some_iff.mp heq
          rcases List.mem_append.mp hk with hk | hk
          · exact (hlt child rfl k hk).trans_le hle'
          · exact hlt' clones' hclones k hk

end

/-! ### The layout of a clone -/

/-- A clone whose children are cloned has their sizes, and is finished if it can be. -/
theorem IMessageField.layout_finished_iff (totalSize : Nat) (finished : Bool) {next : Nat}
    {children clones : Children} (hclones : clones.layout = children.layout ↔ children.AllCloneable)
    (hnext : next ∉ clones.ownedBlocks) :
    (∃ cloned, (if finished then
        match (message clones.sizes.sum false none clones).finish next with
        | some (true, cloned, _) => (some cloned, next + 1)
        | _ => (none, next + 1)
      else (some (message clones.sizes.sum false none clones), next)).1 = some cloned ∧
        cloned.layout = message totalSize finished none children.layout) ↔
      children.AllCloneable ∧ children.sizes.sum = totalSize ∧
        (finished = true → children.HaveElements) := by
  have hsizes (hlayout : clones.layout = children.layout) : children.sizes = clones.sizes := by
    rw [← children.sizes_layout, ← hlayout, clones.sizes_layout]
  cases finished with
  | false =>
    constructor
    · rintro ⟨cloned, heq, hlayout⟩
      obtain rfl := Option.some.inj heq
      obtain ⟨hsum, -, -, hlayout⟩ := message.inj hlayout
      exact ⟨hclones.mp hlayout, by rw [hsizes hlayout, hsum], nofun⟩
    · rintro ⟨hcloneable, hsum, -⟩
      have hlayout := hclones.mpr hcloneable
      refine ⟨_, rfl, ?_⟩
      rw [layout, hlayout, ← hsizes hlayout, hsum]
  | true =>
    obtain ⟨children', assigned, hfinish, hlayout', -⟩ := finish_message hnext clones.sizes.sum
    have helements (hlayout : clones.layout = children.layout) :
        clones.assignableFrom clones.sizes.sum 0 = true ↔ children.HaveElements := by
      rw [← clones.assignableFrom_layout, hlayout, children.assignableFrom_layout,
        ← hsizes hlayout]
      exact children.assignableFrom_iff _ 0 (hclones.mp hlayout) (by rw [Nat.zero_add])
    rw [if_pos rfl, hfinish]
    constructor
    · rintro ⟨cloned, heq, hlayout⟩
      cases hok : clones.assignableFrom clones.sizes.sum 0 with
      | false =>
        rw [hok] at heq
        cases heq
      | true =>
        rw [hok] at heq
        obtain rfl := Option.some.inj heq
        obtain ⟨hsum, -, -, hlayout⟩ := message.inj hlayout
        rw [hlayout'] at hlayout
        exact ⟨hclones.mp hlayout, by rw [hsizes hlayout, hsum],
          fun _ => (helements hlayout).mp hok⟩
    · rintro ⟨hcloneable, hsum, hfinished⟩
      have hlayout := hclones.mpr hcloneable
      rw [(helements hlayout).mpr (hfinished rfl)]
      refine ⟨_, rfl, ?_⟩
      rw [layout, hlayout', hlayout, ← hsizes hlayout, hsum]

mutual

/-- A field that can be cloned is the field that its clone is. -/
theorem IMessageField.layout_clone_iff (block : Nat) :
    (field : IMessageField) → field.WellNamed →
      ((∃ cloned, (field.clone block).1 = some cloned ∧ cloned.layout = field.layout) ↔
        field.Cloneable)
  | .messageField dt size buf, _ => by
      rw [IMessageField.clone, IMessageField.Cloneable, IMessageField.layout]
      cases harray : dt.hasArray with
      | true =>
        constructor
        · rintro ⟨cloned, heq, hlayout⟩
          obtain rfl := Option.some.inj heq
          rw [if_pos rfl, IMessageField.layout] at hlayout
          rw [if_pos rfl]
          exact (IMessageField.messageField.inj hlayout).2.1
        · intro hsize
          rw [if_pos rfl] at hsize
          exact ⟨_, rfl, by rw [if_pos rfl, IMessageField.layout, hsize]⟩
      | false =>
        constructor
        · rintro ⟨cloned, heq, hlayout⟩
          obtain rfl := Option.some.inj heq
          rw [if_neg Bool.false_ne_true, IMessageField.createField, IMessageField.layout]
            at hlayout
          obtain ⟨hdt, hsize, -⟩ := IMessageField.messageField.inj hlayout
          rw [if_neg Bool.false_ne_true]
          exact ⟨hdt.symm, hsize.symm⟩
        · rintro hnone
          rw [if_neg Bool.false_ne_true] at hnone
          refine ⟨_, rfl, ?_⟩
          rw [if_neg Bool.false_ne_true, hnone.1, hnone.2]
          rfl
  | .message totalSize finished buf children, h => by
      have hchildren := children.layout_clones_iff block h
      obtain ⟨-, hlt⟩ := children.lt_of_mem_clones block h
      rw [IMessageField.clone_message totalSize finished buf h, IMessageField.Cloneable]
      revert hchildren hlt
      cases children.clones block with
      | mk clones next =>
        cases clones with
        | none =>
          refine fun hchildren _ => iff_of_false ?_ fun hcloneable => ?_
          · rintro ⟨cloned, heq, -⟩
            cases heq
          · obtain ⟨clones, heq, -⟩ := hchildren.mpr hcloneable.1
            cases heq
        | some clones =>
          intro hchildren hlt
          exact IMessageField.layout_finished_iff totalSize finished
            ⟨fun hlayout => hchildren.mp ⟨clones, rfl, hlayout⟩, fun hcloneable => by
              obtain ⟨clones', heq, hlayout⟩ := hchildren.mpr hcloneable
              rwa [Option.some.inj heq]⟩
            fun hmem => lt_irrefl _ (hlt clones rfl _ hmem)

theorem Children.layout_clones_iff (block : Nat) :
    (children : Children) → children.WellNamed →
      ((∃ clones, (children.clones block).1 = some clones ∧ clones.layout = children.layout) ↔
        children.AllCloneable)
  | .nil, _ => iff_of_true ⟨.nil, rfl, rfl⟩ trivial
  | .cons name field rest, h => by
      have hfield := field.layout_clone_iff block h.2.1
      rw [Children.clones, Children.AllCloneable, ← hfield]
      cases field.clone block with
      | mk child next =>
        cases child with
        | none =>
          refine iff_of_false ?_ ?_
          · rintro ⟨clones, heq, -⟩
            cases heq
          · rintro ⟨⟨cloned, heq, -⟩, -⟩
            cases heq
        | some child =>
          rw [← rest.layout_clones_iff next h.2.2]
          constructor
          · rintro ⟨clones, heq, hlayout⟩
            obtain ⟨clones', hclones, rfl⟩ := Option.map_eq_some_iff.mp heq
            obtain ⟨-, hchild, hrest⟩ := Children.cons.inj hlayout
            exact ⟨⟨child, rfl, hchild⟩, clones', hclones, hrest⟩
          · rintro ⟨⟨cloned, heq, hchild⟩, clones, hclones, hrest⟩
            obtain rfl := Option.some.inj heq
            refine ⟨.cons name child clones, ?_, ?_⟩
            · dsimp only
              rw [hclones, Option.map_some]
            · rw [Children.layout, Children.layout, hchild, hrest]

end

namespace IMessageField

/-- What `finish` returns. -/
def finishes : IMessageField → Bool
  | messageField dt _ _ => dt.hasArray
  | message totalSize finished _ children => !finished && children.assignableFrom totalSize 0

theorem finishes_layout (field : IMessageField) : field.layout.finishes = field.finishes := by
  cases field with
  | messageField dt size buf => rfl
  | message totalSize finished buf children =>
    rw [layout, finishes, children.assignableFrom_layout, finishes]

theorem fst_finish {field : IMessageField} {block : Nat}
    {result : Bool × IMessageField × List Assignment} (h : field.finish block = some result) :
    result.1 = field.finishes := by
  cases field with
  | messageField dt size buf =>
    obtain rfl := Option.some.inj h
    rfl
  | message totalSize finished buf children =>
    rw [finish] at h
    cases finished with
    | true =>
      obtain rfl := Option.some.inj h
      rfl
    | false =>
      rw [if_neg Bool.false_ne_true] at h
      obtain ⟨b, -, h⟩ := Option.bind_eq_some_iff.mp h
      split at h
      · cases h
      · obtain rfl := Option.some.inj h
        exact children.fst_assignFieldArrays b.block b.offset totalSize 0

/-- A clone that is not finished can be, in the next block of the allocator. -/
theorem isSome_finish_clone {field cloned : IMessageField} {block block' : Nat}
    (h : field.WellNamed) (hunfinished : field.isFinished = false)
    (hclone : (field.clone block).1 = some cloned) (hnext : (field.clone block).2 ≤ block') :
    (cloned.finish block').isSome = true := by
  obtain ⟨-, hlt⟩ := field.lt_of_mem_clone block h
  have howned := hlt cloned hclone
  cases field with
  | messageField dt size buf =>
    obtain rfl := Option.some.inj hclone
    split <;> rfl
  | message totalSize finished buf children =>
    obtain rfl : finished = false := hunfinished
    rw [clone_message totalSize false buf h] at hclone hnext howned
    revert hclone hnext howned
    cases children.clones block with
    | mk clones next =>
      cases clones with
      | none => exact nofun
      | some clones =>
        intro hclone hnext howned
        obtain rfl := Option.some.inj hclone
        have hmem : block' ∉ clones.ownedBlocks := fun hmem =>
          absurd (howned block' hmem) (Nat.not_lt.mpr hnext)
        obtain ⟨children', assigned, hfinish, -⟩ := finish_message hmem clones.sizes.sum
        rw [hfinish]
        rfl

/-- A message is cloned with its layout exactly when it is cloneable. -/
theorem keepsLayout_iff (field : IMessageField) (block : Nat) (h : field.WellNamed) :
    field.KeepsLayout block ↔ field.Cloneable := by
  rw [← field.layout_clone_iff block h]
  constructor
  · rintro ⟨cloned, next, hclone, hlayout, -⟩
    exact ⟨cloned, congrArg Prod.fst hclone, hlayout⟩
  · rintro ⟨cloned, hclone, hlayout⟩
    refine ⟨cloned, (field.clone block).2, Prod.ext hclone rfl, hlayout, fun hunfinished =>
      ⟨fun block' => isSome_finish_clone h hunfinished hclone, ?_⟩⟩
    intro b b' result result' hresult hresult'
    rw [fst_finish hresult, fst_finish hresult', ← field.finishes_layout, ← hlayout,
      cloned.finishes_layout]

/-- A finished message of two fields, one of them a message. -/
def nestedMessage : IMessageField :=
  message 12 true (some ⟨0, 0, 12, true⟩)
    (.cons "id" (messageField .int 1 (some ⟨0, 0, 4, false⟩))
      (.cons "point" (message 8 false (some ⟨0, 4, 8, false⟩)
        (.cons "x" (messageField .double 1 (some ⟨0, 4, 8, false⟩)) .nil)) .nil))

theorem keepsLayout_nestedMessage : nestedMessage.KeepsLayout 1 :=
  (keepsLayout_iff nestedMessage 1 ⟨rfl, trivial, rfl, ⟨rfl, trivial, trivial⟩, trivial⟩).mpr
    ⟨⟨rfl, ⟨⟨rfl, trivial⟩, rfl, nofun⟩, trivial⟩, rfl,
      fun _ => ⟨⟨Nat.one_ne_zero, rfl⟩, ⟨⟨Nat.one_ne_zero, rfl⟩, trivial⟩, trivial⟩⟩

/-- A field has no array elements before its message is finished: the clone has none either. -/
theorem not_keepsLayout_unfinished :
    ∃ field, ReachableBy (fun _ _ _ => true) field ∧ ¬ field.KeepsLayout 0 := by
  have hadd := ReachableBy.call_self (.addField "id" .int 4)
    (ReachableBy.createMessage (p := fun _ _ _ => true)) rfl (by simp [Action.child?]) rfl
  refine ⟨_, hadd, ?_⟩
  rintro ⟨cloned, next, hclone, hlayout, -⟩
  obtain ⟨heq, -⟩ := Prod.mk.inj hclone
  obtain rfl := Option.some.inj heq
  cases hlayout

end IMessageField

end Sihd.Util
