import Sihd.Sys.FileTouches

/-!
# Files with other contents

Where paths lead does not depend on the contents of files, nor do attributes: the calls do
the same with other contents, and `open` leaves nothing in a file that it creates or
truncates.
-/

namespace Sihd.Sys.Files

open FileTree

/-- The same files with the contents `c`. -/
def withContents (f : Files) (c : Nat → List UInt8) : Files :=
  { f with inodes := fun id => ⟨c id, (f.inodes id).attr⟩ }

variable {f : Files} {c : Nat → List UInt8}

theorem withContents_self (f : Files) :
    f.withContents (fun id => (f.inodes id).content) = f := rfl

theorem inodes_setInode (f : Files) (id : Nat) (inode : Inode) (id' : Nat) :
    (f.setInode id inode).inodes id' = if id' = id then inode else f.inodes id' :=
  Function.update_apply ..

/-- The inodes are what is left to compare. -/
theorem eq_withInodes {inodes inodes' : Nat → Inode} (h : ∀ id, inodes id = inodes' id) :
    ({ f with inodes := inodes } : Files) = { f with inodes := inodes' } := by rw [funext h]

/-- A content that is set is replaced. -/
theorem withContents_setContent (file : File) (f : Files) (content : List UInt8) :
    (file.setContent f content).withContents c = f.withContents c := by
  rw [File.setContent]
  split
  · rfl
  · rename_i id hid
    refine eq_withInodes fun id' => ?_
    rw [inodes_setInode]
    split
    · rename_i heq
      rw [heq]
    · rfl

theorem setInode_withContents (id : Nat) (inode : Inode) :
    (f.withContents c).setInode id inode =
      (f.setInode id inode).withContents (Function.update c id inode.content) := by
  refine eq_withInodes fun id' => ?_
  change ((f.withContents c).setInode id inode).inodes id' = _
  rw [inodes_setInode, inodes_setInode, Function.update_apply]
  split <;> rfl

/-- Attributes are set whatever the contents are. -/
theorem setAttr_withContents (path : List UInt8) (change : Attr → Attr) :
    (f.withContents c).setAttr path change =
      (f.setAttr path change).map fun r => (r.1.withContents c, r.2) := by
  have hlookup : (f.withContents c).lookup true path = f.lookup true path := rfl
  unfold setAttr
  rw [hlookup]
  cases f.lookup true path with
  | error errno => rfl
  | ok p =>
    dsimp only
    split
    · rename_i h
      have h' : f.tree.entry p = none := h
      split <;> simp_all [Except.map]
    · rename_i attr h
      have h' : f.tree.entry p = some (.directory attr) := h
      split
      · simp_all
      · rename_i attr' h''
        obtain rfl : attr = attr' := by simpa using h'.symm.trans h''
        rfl
      · simp_all
      · simp_all
    · rename_i id h
      have h' : f.tree.entry p = some (.file id) := h
      split
      · simp_all
      · simp_all
      · rename_i id' h''
        obtain rfl : id = id' := by simpa using h'.symm.trans h''
        rw [setInode_withContents]
        refine congrArg Except.ok (Prod.ext ?_ rfl)
        rw [show (f.withContents c).inodes id = ⟨c id, (f.inodes id).attr⟩ from rfl]
        refine eq_withInodes fun id' => ?_
        rw [inodes_setInode, inodes_setInode, Function.update_apply]
        split
        · rename_i heq
          rw [heq]
        · rfl
      · simp_all
    · rename_i absolute target h
      have h' : f.tree.entry p = some (.link absolute target) := h
      split <;> simp_all [Except.map]

/-- The contents after a call of `open` that touched something: its file has none. -/
def opened (c : Nat → List UInt8) (touched : List Touch) (file : Option Nat) :
    Nat → List UInt8 :=
  match touched, file with
  | _ :: _, some id => Function.update c id []
  | _, _ => c

theorem openFile_withContents (path : List UInt8) (write create truncate : Bool) :
    (f.withContents c).openFile path write create truncate =
      (f.openFile path write create truncate).map fun r =>
        (r.1.withContents (opened c r.2.1 r.2.2), r.2) := by
  have hlookup : (f.withContents c).lookup true path = f.lookup true path := rfl
  have htree : (f.withContents c).tree = f.tree := rfl
  rw [openFile, openFile, hlookup, htree]
  cases f.lookup true path with
  | error errno => rfl
  | ok p =>
    dsimp only
    cases f.tree.entry p with
    | none =>
      dsimp only
      split
      · by_cases hadd : f.tree.CanAdd p
        · have hadd' : (f.withContents c).tree.CanAdd p := hadd
          rw [addEntry, addEntry, dif_pos hadd, dif_pos hadd']
          refine congrArg Except.ok (Prod.ext ?_ rfl)
          exact setInode_withContents (f := { f with tree := f.tree.add p .file hadd }) _ _
        · have hadd' : ¬ (f.withContents c).tree.CanAdd p := hadd
          rw [addEntry, addEntry, dif_neg hadd, dif_neg hadd']
          rfl
      · rfl
    | some e =>
      cases e with
      | directory attr =>
        dsimp only
        split <;> rfl
      | file id =>
        dsimp only
        split
        · rw [setInode_withContents]
          refine congrArg Except.ok (Prod.ext ?_ rfl)
          refine eq_withInodes fun id' => ?_
          rw [inodes_setInode, inodes_setInode]
          split <;> rfl
        · rfl
      | link absolute target => rfl

/-- Nothing is left in a file that is new, or that is truncated. -/
structure Empties (f f' : Files) (path : List UInt8) (truncate : Bool) (id : Nat) : Prop where
  content : (f'.inodes id).content = []
  others : ∀ id', id' ≠ id → f'.inodes id' = f.inodes id'
  place : ∃ p, f.lookup true path = .ok p ∧ (f.tree.entry p = none ∧ id = f.tree.next ∨
    f.tree.entry p = some (.file id) ∧ truncate = true)

/-- A call of `open` changes nothing, or leaves nothing in its file. -/
theorem openFile_inodes {f' : Files} {path : List UInt8} {write create truncate : Bool}
    {touched : List Touch} {file : Option Nat}
    (h : f.openFile path write create truncate = .ok (f', touched, file)) :
    (f' = f ∧ touched = []) ∨ ∃ id t, file = some id ∧ touched = [t] ∧
      f.Empties f' path truncate id := by
  rw [openFile] at h
  split at h
  · cases h
  · rename_i p hp
    split at h
    · rename_i hentry
      split at h
      · split at h
        · cases h
        · rename_i f₁ touched₁ hadd₁
          obtain ⟨hadd, rfl, rfl⟩ := addEntry_ok hadd₁
          cases h
          refine .inr ⟨_, _, rfl, rfl, ?_, fun id' hne => ?_, p, hp, .inl ⟨hentry, rfl⟩⟩
          · rw [inodes_setInode, if_pos rfl]
          · rw [inodes_setInode, if_neg hne]
      · cases h
    · split at h
      · cases h
      · cases h
        exact .inl ⟨rfl, rfl⟩
    · rename_i id hentry
      split at h
      · rename_i htruncate
        cases h
        refine .inr ⟨_, _, rfl, rfl, ?_, fun id' hne => ?_, p, hp, .inr ⟨hentry, htruncate⟩⟩
        · rw [inodes_setInode, if_pos rfl]
        · rw [inodes_setInode, if_neg hne]
      · cases h
        exact .inl ⟨rfl, rfl⟩
    · cases h

/-- What `open` is asked does not matter where there is a file and it has no content to be
truncated, or where there is none and both create it, or neither. -/
theorem openFile_congr (f : Files) (path : List UInt8)
    (write create create' truncate truncate' : Bool)
    (hcreate : ∀ p, f.lookup true path = .ok p → f.tree.entry p = none → create = create')
    (htruncate : ∀ p id, f.lookup true path = .ok p → f.tree.entry p = some (.file id) →
      truncate ≠ truncate' → (f.inodes id).content = []) :
    ((f.openFile path write create truncate).map fun r => (r.1, r.2.2)) =
      (f.openFile path write create' truncate').map fun r => (r.1, r.2.2) := by
  rw [openFile, openFile]
  cases hp : f.lookup true path with
  | error errno => rfl
  | ok p =>
    dsimp only
    cases hentry : f.tree.entry p with
    | none => rw [hcreate p hp hentry]
    | some e =>
      cases e with
      | directory attr => rfl
      | file id =>
        dsimp only
        by_cases heq : truncate = truncate'
        · rw [heq]
        · have hsame : f.setInode id { f.inodes id with content := [] } = f := by
            refine eq_withInodes (f := f) fun id' => ?_
            rw [Function.update_apply]
            split
            · rename_i hid
              rw [hid, ← htruncate p id hp hentry heq]
            · rfl
          cases truncate <;> cases truncate' <;> first | exact absurd rfl heq | skip
          · exact congrArg (fun f => Except.ok (f, some id)) hsame.symm
          · exact congrArg (fun f => Except.ok (f, some id)) hsame
      | link absolute target => rfl

/-- The content of an inode is set as the content of a file is. -/
theorem withContents_setInode (id : Nat) (content : List UInt8) :
    (f.withContents c).setInode id { (f.withContents c).inodes id with content := content } =
      f.withContents (Function.update c id content) := by
  refine eq_withInodes fun id' => ?_
  rw [Function.update_apply, Function.update_apply]
  split
  · rename_i hid
    rw [hid]
    rfl
  · rfl

theorem setInode_self (f : Files) (id : Nat) : f.setInode id (f.inodes id) = f :=
  congrArg (fun inodes => { f with inodes := inodes }) (Function.update_eq_self id f.inodes)

/-- Attributes are set beside the contents. -/
theorem content_setAttr {f' : Files} {touched : List Touch} {path : List UInt8}
    {change : Attr → Attr} (h : f.setAttr path change = .ok (f', touched)) (id : Nat) :
    (f'.inodes id).content = (f.inodes id).content := by
  have hwith := setAttr_withContents (f := f) (c := fun id => (f.inodes id).content) path change
  rw [withContents_self, h, Except.map, Except.ok.injEq, Prod.mk.injEq] at hwith
  rw [hwith.1]
  rfl

end Sihd.Sys.Files

namespace Sihd.Sys.File

theorem setContent_content (file : File) (f : Files) :
    file.setContent f (file.content f) = f := by
  rw [setContent, content]
  split
  · rfl
  · exact Files.setInode_self f _

end Sihd.Sys.File
