import Sihd.Sys.File

/-!
# What the calls on files touch

A call that succeeds has found the places of its paths, and changes the tree at the entries
that it touches and nowhere else.
-/

namespace Sihd.Sys

open FileTree

/-- An entry is under a directory when it is in it, or below; the content of a file, when the
file is, wherever it is. -/
def Touch.Inside (t : Tree) (r : Place) : Touch → Prop
  | .entry p => r <+: p ∧ p ≠ r
  | .node p => r <+: p
  | .content id => ∀ p, t.entry p = some (.file id) → r <+: p

instance (t : Tree) (r p : Place) : Decidable ((Touch.entry p).Inside t r) :=
  inferInstanceAs (Decidable (_ ∧ _))

namespace Files

open Util Path

variable {f f' : Files} {touched : List Touch} {path path' : List UInt8} {p q : Place}

theorem addEntry_ok {e : New (List UInt8) Attr} (h : f.addEntry p e = .ok (f', touched)) :
    ∃ hadd : f.tree.CanAdd p, f' = { f with tree := f.tree.add p e hadd } ∧
      touched = [.entry p] := by
  rw [addEntry] at h
  split at h
  · rename_i hadd
    cases h
    exact ⟨hadd, rfl, rfl⟩
  · cases h

theorem removeEntry_ok (h : f.removeEntry p = .ok (f', touched)) :
    f.tree.IsEmptyAt p ∧ touched = [.entry p] ∧ f.tree.Keeps f'.tree [p] := by
  rw [removeEntry] at h
  split at h
  · rename_i hremove
    cases h
    exact ⟨hremove.2, rfl, keeps_remove hremove.1 hremove.2⟩
  · cases h

theorem lookupEntry_ok (h : f.lookupEntry path = .ok p) : f.lookup false path = .ok p := by
  rw [lookupEntry] at h
  split at h
  · cases h
  · rename_i q hq
    split at h
    · rw [hq]
      exact h
    · cases h

/-- A new entry is where its path leads, and nothing was there. -/
structure Adds (f f' : Files) (last : Bool) (path : List UInt8) (touched : List Touch)
    (p : Place) : Prop where
  lookup : f.lookup last path = .ok p
  free : f.tree.entry p = none
  touched : touched = [.entry p]
  keeps : f.tree.Keeps f'.tree [p]

/-- An entry is removed from where its path leads, and nothing was below it. -/
structure Removes (f f' : Files) (path : List UInt8) (touched : List Touch) (p : Place) :
    Prop where
  lookup : f.lookup false path = .ok p
  taken : (f.tree.entry p).isSome
  empty : f.tree.IsEmptyAt p
  touched : touched = [.entry p]
  keeps : f.tree.Keeps f'.tree [p]

/-- An entry is moved from where its path leads to where another leads. -/
structure Moves (f f' : Files) (src dst : List UInt8) (touched : List Touch) (p q : Place) :
    Prop where
  lookup : f.lookup false src = .ok p
  lookup' : f.lookup false dst = .ok q
  taken : (f.tree.entry p).isSome
  canMove : f.tree.CanMove p q
  touched : touched = [.entry p, .entry q]
  keeps : f.tree.Keeps f'.tree [p, q]

/-- What a path leads to is changed, and no entry. -/
structure Sets (f f' : Files) (path : List UInt8) (touched : List Touch) (p : Place) :
    Prop where
  lookup : f.lookup true path = .ok p
  taken : (f.tree.entry p).isSome
  touched : touched = [.node p]
  alike : f.tree.Alike f'.tree
  next : f'.tree.next = f.tree.next
  cwd : f'.cwd = f.cwd

theorem mkdir_ok {mode : BitVec 32} (h : f.mkdir path mode = .ok (f', touched)) :
    ∃ p, f.Adds f' false path touched p := by
  rw [mkdir] at h
  split at h
  · cases h
  · rename_i p hp
    split at h
    · cases h
    · rename_i hfree
      obtain ⟨hadd, rfl, rfl⟩ := addEntry_ok h
      exact ⟨p, hp, hadd.entry, rfl, keeps_add _ hadd⟩

theorem makeDirectory_ok {mode : BitVec 32} (h : f.makeDirectory path mode = .ok (f', touched)) :
    f' = f ∧ touched = [] ∨ ∃ p, f.Adds f' false path touched p := by
  rw [makeDirectory] at h
  split at h
  · cases h
    exact .inl ⟨rfl, rfl⟩
  · split at h
    · cases h
    · exact .inr (mkdir_ok h)

theorem symlink_ok {target : List UInt8} (h : f.symlink target path = .ok (f', touched)) :
    ∃ p, f.Adds f' false path touched p := by
  rw [symlink] at h
  split at h
  · cases h
  · split at h
    · cases h
    · rename_i p hp
      split at h
      · cases h
      · obtain ⟨hadd, rfl, rfl⟩ := addEntry_ok h
        exact ⟨p, hp, hadd.entry, rfl, keeps_add _ hadd⟩

theorem rmdir_ok (h : f.rmdir path = .ok (f', touched)) : ∃ p, f.Removes f' path touched p := by
  rw [rmdir] at h
  split at h
  · cases h
  · rename_i p hp
    split at h
    · cases h
    · rename_i attr hentry
      obtain ⟨hempty, htouched, hkeeps⟩ := removeEntry_ok h
      exact ⟨p, lookupEntry_ok hp, by rw [hentry]; rfl, hempty, htouched, hkeeps⟩
    · cases h

theorem remove_ok (h : f.remove path = .ok (f', touched)) :
    ∃ p, f.Removes f' path touched p := by
  rw [remove] at h
  split at h
  · cases h
  · rename_i p hp
    split at h
    · cases h
    · rename_i htaken
      obtain ⟨hempty, htouched, hkeeps⟩ := removeEntry_ok h
      refine ⟨p, lookupEntry_ok hp, ?_, hempty, htouched, hkeeps⟩
      simpa [Option.isSome_iff_ne_none] using htaken

theorem rename_ok (h : f.rename path path' = .ok (f', touched)) :
    f' = f ∧ touched = [] ∨ ∃ p q, f.Moves f' path path' touched p q := by
  rw [rename] at h
  split at h
  · cases h
  · cases h
  · rename_i p q hp hq
    split at h
    · cases h
    · rename_i htaken
      split at h
      · cases h
        exact .inl ⟨rfl, rfl⟩
      · split at h
        · cases h
        · split at h
          · rename_i hmove
            cases h
            refine .inr ⟨p, q, lookupEntry_ok hp, lookupEntry_ok hq, ?_, hmove, rfl,
              keeps_move hmove⟩
            simpa [Option.isSome_iff_ne_none] using htaken
          · cases h

theorem setAttr_ok {change : Attr → Attr} (h : f.setAttr path change = .ok (f', touched)) :
    ∃ p, f.Sets f' path touched p := by
  rw [setAttr] at h
  split at h
  · cases h
  · rename_i p hp
    split at h
    · cases h
    · rename_i attr hentry
      cases h
      exact ⟨p, hp, by rw [hentry]; rfl, rfl,
        alike_setDirectory _ (isDirectory_iff.mpr ⟨attr, hentry⟩), rfl, rfl⟩
    · rename_i id hentry
      cases h
      exact ⟨p, hp, by rw [hentry]; rfl, rfl, alike_refl _, rfl, rfl⟩
    · cases h

/-- Paths lead where they led before what is at a place was set. -/
theorem lookup_congr (htree : f.tree.Alike f'.tree) (hcwd : f'.cwd = f.cwd) :
    f'.lookup = f.lookup := by
  funext last path
  rw [lookup, lookup, walk_alike htree, hcwd]

/-- Calls that set what a path leads to, one after the other. -/
structure SetsOnly (f f' : Files) (path : List UInt8) (touched : List Touch) : Prop where
  alike : f.tree.Alike f'.tree
  next : f'.tree.next = f.tree.next
  cwd : f'.cwd = f.cwd
  touched : ∀ touch ∈ touched, ∃ p, touch = .node p ∧ f.lookup true path = .ok p ∧
    (f.tree.entry p).isSome

theorem setsOnly_refl (f : Files) (path : List UInt8) : f.SetsOnly f path [] :=
  ⟨alike_refl _, rfl, rfl, fun _ hmem => by cases hmem⟩

theorem Sets.only (h : f.Sets f' path touched p) : f.SetsOnly f' path touched := by
  refine ⟨h.alike, h.next, h.cwd, fun touch hmem => ⟨p, ?_, h.lookup, h.taken⟩⟩
  rw [h.touched] at hmem
  exact List.mem_singleton.mp hmem

theorem SetsOnly.trans {f'' : Files} {touched' : List Touch} (h : f.SetsOnly f' path touched)
    (h' : f'.SetsOnly f'' path touched') : f.SetsOnly f'' path (touched ++ touched') := by
  refine ⟨h.alike.trans h'.alike, h'.next.trans h.next, h'.cwd.trans h.cwd,
    fun touch hmem => ?_⟩
  rcases List.mem_append.mp hmem with hmem | hmem
  · exact h.touched touch hmem
  · obtain ⟨p, hp, hlookup, htaken⟩ := h'.touched touch hmem
    rw [lookup_congr h.alike h.cwd] at hlookup
    exact ⟨p, hp, hlookup, h.alike.isSome_iff.mp htaken⟩

theorem truncate_ok {size : BitVec 64} (h : f.truncate path size = .ok (f', touched)) :
    ∃ p, f.Sets f' path touched p := by
  rw [truncate] at h
  split at h
  · cases h
  · rename_i p hp
    split at h
    · cases h
    · rename_i id hentry
      split at h
      · cases h
      · cases h
        exact ⟨p, hp, by rw [hentry]; rfl, rfl, alike_refl _, rfl, rfl⟩
    · cases h

/-- A file that is opened is where its path leads: it was there, or it is new. -/
inductive Opens (f : Files) (path : List UInt8) (create : Bool) :
    Files → List Touch → Option Nat → Prop
  | directory : Opens f path create f [] none
  | present {f' : Files} {touched : List Touch} {id : Nat} {p : Place}
      (lookup : f.lookup true path = .ok p) (hentry : f.tree.entry p = some (.file id))
      (htree : f'.tree = f.tree) (hcwd : f'.cwd = f.cwd) (htouched : touched ⊆ [.node p]) :
      Opens f path create f' touched (some id)
  | created {f' : Files} {p : Place} (lookup : f.lookup true path = .ok p)
      (hadd : f.tree.CanAdd p) (hcreate : create = true)
      (htree : f'.tree = f.tree.add p .file hadd) (hcwd : f'.cwd = f.cwd) :
      Opens f path create f' [.entry p] (some f.tree.next)

theorem openFile_ok {write create truncate : Bool} {file : Option Nat}
    (h : f.openFile path write create truncate = .ok (f', touched, file)) :
    f.Opens path create f' touched file := by
  rw [openFile] at h
  split at h
  · cases h
  · rename_i p hp
    split at h
    · split at h
      · rename_i hcreate
        split at h
        · cases h
        · rename_i f₁ touched₁ hadd₁
          obtain ⟨hadd, rfl, rfl⟩ := addEntry_ok hadd₁
          cases h
          exact .created hp hadd hcreate rfl rfl
      · cases h
    · split at h
      · cases h
      · cases h
        exact .directory
    · rename_i id hentry
      split at h
      · cases h
        exact .present hp hentry rfl rfl (List.Subset.refl _)
      · cases h
        exact .present hp hentry rfl rfl (List.nil_subset _)
    · cases h

theorem Opens.next_le {create : Bool} {file : Option Nat} (h : f.Opens path create f' touched file) :
    f.tree.next ≤ f'.tree.next := by
  cases h with
  | directory => exact le_rfl
  | present _ _ htree => exact (congrArg FileTree.next htree).ge
  | created _ _ _ htree => exact (Nat.le_succ _).trans (congrArg FileTree.next htree).ge

/-- The file that is opened is one of the files. -/
theorem Opens.lt_next {create : Bool} {id : Nat} (h : f.Opens path create f' touched (some id)) :
    id < f'.tree.next := by
  cases h with
  | present _ hentry htree =>
    exact (f.tree.fresh _ _ hentry).trans_eq (congrArg FileTree.next htree).symm
  | created _ _ _ htree => exact (Nat.lt_succ_self _).trans_eq (congrArg FileTree.next htree).symm

end Files

/-! ### Streams touch the content of their file -/

namespace File

theorem openFile_ok {f f' : Files} {path : List UInt8} {mode : OpenMode} {touched : List Touch}
    {file : File} (h : File.openFile f path mode = .ok (f', touched, file)) :
    f.Opens path mode.creates f' touched file.file := by
  rw [openFile] at h
  split at h
  · cases h
  · rename_i hopen
    cases h
    exact Files.openFile_ok hopen

theorem tree_setContent (file : File) (f : Files) (content : List UInt8) :
    (file.setContent f content).tree = f.tree := by
  rw [setContent]
  split <;> rfl

theorem tree_flush (file : File) (f : Files) : (file.flush f).tree = f.tree :=
  file.tree_setContent f _

theorem seekBegin_some {file file' : File} {f f' : Files} {offset : Nat} {keep : Bool}
    (h : file.seekBegin f offset keep = some (f', file')) :
    f'.tree = f.tree ∧ file'.file = file.file ∧
      file'.stream.canWrite = file.stream.canWrite := by
  rw [seekBegin] at h
  split at h
  · cases h
  · cases h
    exact ⟨file.tree_flush f, rfl, rfl⟩

theorem file_read (file : File) (f : Files) (size ahead : Nat) :
    (file.read f size ahead).1.file = file.file := by
  rw [read]
  split <;> rfl

end File

end Sihd.Sys
