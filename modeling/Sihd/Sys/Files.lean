import Sihd.Lib.FileWalk
import Sihd.Sys.Jail

/-!
# The file system

What the kernel does with paths: it follows their links on every call. A call that succeeds
tells what it touches. Permissions are recorded and not checked, and there is always room.
-/

namespace Sihd.Sys

open Util FileTree Path

structure Attr where
  permissions : BitVec 32
  uid : BitVec 32
  gid : BitVec 32
  deriving DecidableEq

structure Inode where
  content : List UInt8
  attr : Attr

/-- A name that an entry may have. -/
def IsEntryName (name : List UInt8) : Prop := IsName name ∧ name ≠ dot ∧ name ≠ dotdot

instance : DecidablePred IsEntryName := fun name =>
  inferInstanceAs (Decidable ((name ≠ [] ∧ Str.slash ∉ name) ∧ name ≠ dot ∧ name ≠ dotdot))

abbrev Place := List (List UInt8)

abbrev Tree := FileTree IsEntryName Attr

/-- The files as a process sees them: those that it creates have its owner and what its
`umask` leaves of their permissions. -/
structure Files where
  tree : Tree
  inodes : Nat → Inode
  cwd : Place
  umask : BitVec 32
  uid : BitVec 32
  gid : BitVec 32

/-- What a call touches: an entry that is created, removed or renamed, with what is below it;
what is at a place; or the content of a file. -/
inductive Touch where
  | entry (p : Place)
  | node (p : Place)
  | content (id : Nat)
  deriving DecidableEq

namespace Files

def maxLinks : Nat := 40

/-- A separator at the end of a path asks for a directory. -/
def pathNames (path : List UInt8) : List (List UInt8) :=
  segments path ++ if path.getLast? = some Str.slash then [dot] else []

def lookup (f : Files) (last : Bool) (path : List UInt8) : Except Errno Place :=
  if path = [] then .error .noEntry
  else f.tree.walk dot dotdot last maxLinks (if isAbsolute path then [] else f.cwd)
    (pathNames path)

/-- The place of an entry that is not to be followed and not a directory by `.` or `..`. -/
def lookupEntry (f : Files) (path : List UInt8) : Except Errno Place :=
  match f.lookup false path with
  | .error errno => .error errno
  | .ok p =>
      if ∃ name ∈ (pathNames path).getLast?, name ≠ dot ∧ name ≠ dotdot then .ok p
      else .error .other

def realpath (f : Files) (path : List UInt8) : List UInt8 :=
  match f.lookup true path with
  | .error _ => []
  | .ok p => if (f.tree.entry p).isSome then render true p else []

def isDir (f : Files) (path : List UInt8) : Bool :=
  match f.lookup true path with
  | .error _ => false
  | .ok p => f.tree.isDirectory p

abbrev Outcome := Except Errno (Files × List Touch)

def addEntry (f : Files) (p : Place) (e : New (List UInt8) Attr) : Outcome :=
  if h : f.tree.CanAdd p then .ok ({ f with tree := f.tree.add p e h }, [.entry p])
  else .error .other

def removeEntry (f : Files) (p : Place) : Outcome :=
  if h : p ≠ [] ∧ f.tree.IsEmptyAt p then
    .ok ({ f with tree := f.tree.remove p h.1 h.2 }, [.entry p])
  else .error .other

def setInode (f : Files) (id : Nat) (inode : Inode) : Files :=
  { f with inodes := Function.update f.inodes id inode }

/-- Change the attributes of what a path leads to. -/
def setAttr (f : Files) (path : List UInt8) (change : Attr → Attr) : Outcome :=
  match f.lookup true path with
  | .error errno => .error errno
  | .ok p =>
      match h : f.tree.entry p with
      | none => .error .noEntry
      | some (.directory attr) =>
          .ok ({ f with
            tree := f.tree.setDirectory p (change attr) (isDirectory_iff.mpr ⟨attr, h⟩) },
            [.node p])
      | some (.file id) =>
          .ok (f.setInode id { f.inodes id with attr := change (f.inodes id).attr }, [.node p])
      | some (.link _ _) => .error .other

def chmod (f : Files) (path : List UInt8) (mode : BitVec 32) : Outcome :=
  f.setAttr path fun attr => { attr with permissions := mode &&& 0o7777#32 }

def chown (f : Files) (path : List UInt8) (uid gid : BitVec 32) : Outcome :=
  f.setAttr path fun attr => { attr with uid := uid, gid := gid }

def resize (content : List UInt8) (size : Nat) : List UInt8 :=
  content.take size ++ List.replicate (size - content.length) 0

/-- The size is signed. -/
def truncate (f : Files) (path : List UInt8) (size : BitVec 64) : Outcome :=
  match f.lookup true path with
  | .error errno => .error errno
  | .ok p =>
      match f.tree.entry p with
      | none => .error .noEntry
      | some (.file id) =>
          if size.toInt < 0 then .error .other
          else
            .ok (f.setInode id { f.inodes id with
              content := resize (f.inodes id).content size.toNat }, [.node p])
      | some _ => .error .other

def mkdir (f : Files) (path : List UInt8) (mode : BitVec 32) : Outcome :=
  match f.lookup false path with
  | .error errno => .error errno
  | .ok p =>
      if (f.tree.entry p).isSome then .error .entryExists
      else f.addEntry p (.directory ⟨mode &&& 0o1777#32 &&& ~~~f.umask, f.uid, f.gid⟩)

def rmdir (f : Files) (path : List UInt8) : Outcome :=
  match f.lookupEntry path with
  | .error errno => .error errno
  | .ok p =>
      match f.tree.entry p with
      | none => .error .noEntry
      | some (.directory _) => f.removeEntry p
      | some _ => .error .other

/-- `remove` is `unlink`, or `rmdir` for a directory. -/
def remove (f : Files) (path : List UInt8) : Outcome :=
  match f.lookupEntry path with
  | .error errno => .error errno
  | .ok p => if (f.tree.entry p).isNone then .error .noEntry else f.removeEntry p

/-- A directory takes the place of an empty directory only, and another entry that of no
directory. -/
def rename (f : Files) (src dst : List UInt8) : Outcome :=
  match f.lookupEntry src, f.lookupEntry dst with
  | .error errno, _ => .error errno
  | .ok _, .error errno => .error errno
  | .ok p, .ok q =>
      if (f.tree.entry p).isNone then .error .noEntry
      else if p = q then .ok (f, [])
      else if (f.tree.entry q).isSome ∧ f.tree.isDirectory p ≠ f.tree.isDirectory q then
        .error .other
      else if h : f.tree.CanMove p q then
        .ok ({ f with tree := f.tree.move p q h }, [.entry p, .entry q])
      else .error .other

def symlink (f : Files) (target path : List UInt8) : Outcome :=
  if target = [] then .error .noEntry
  else
    match f.lookup false path with
    | .error errno => .error errno
    | .ok p =>
        if (f.tree.entry p).isSome then .error .entryExists
        else f.addEntry p (.link (isAbsolute target) (pathNames target))

/-- `open`: the file of a path, or a directory, which can only be read. -/
def openFile (f : Files) (path : List UInt8) (write create truncate : Bool) :
    Except Errno (Files × List Touch × Option Nat) :=
  match f.lookup true path with
  | .error errno => .error errno
  | .ok p =>
      match f.tree.entry p with
      | none =>
          if create then
            match f.addEntry p .file with
            | .error errno => .error errno
            | .ok (f', touched) =>
                .ok (f'.setInode f.tree.next ⟨[], ⟨0o666#32 &&& ~~~f.umask, f.uid, f.gid⟩⟩,
                  touched, some f.tree.next)
          else .error .noEntry
      | some (.directory _) => if write then .error .other else .ok (f, [], none)
      | some (.file id) =>
          if truncate then
            .ok (f.setInode id { f.inodes id with content := [] }, [.node p], some id)
          else .ok (f, [], some id)
      | some (.link _ _) => .error .other

/-- `fs::make_directory`: a directory that is there is made. -/
def makeDirectory (f : Files) (path : List UInt8) (mode : BitVec 32) : Outcome :=
  if f.isDir path then .ok (f, [])
  else if path = [] then .error .other
  else f.mkdir path mode

end Files

end Sihd.Sys

/-!
## Where a jailed path leads

The root of a jail is an absolute path to a directory, with no link on its way. A path that
is jailed leads under the root, with all its links, unless nothing is where the lexical path
leads: then the lexical path is taken, and the links on its way are not looked at.
-/

namespace Sihd.Sys.Files

open Util FileTree Path LexicalPath

/-- An absolute path to a directory, with no link on its way. -/
structure IsRoot (t : Tree) (rootPath : List UInt8) : Prop where
  absolute : isAbsolute rootPath = true
  clear : ∀ k, t.isDirectory (resolve dot dotdot [] ((segments rootPath).take k)) = true

def rootPlace (rootPath : List UInt8) : Place := resolve dot dotdot [] (segments rootPath)

/-- The lexical path of a client's path. -/
def candidate (rootPath path : List UInt8) : List UInt8 := render true (jailNames rootPath path)

/-- The lexical path is under the root, and nothing is where it leads. -/
def Missing (f : Files) (rootPath path : List UInt8) : Prop :=
  (rootNames rootPath = [] ∨ rootNames rootPath <+: jailNames rootPath path) ∧
    f.realpath (candidate rootPath path) = []

variable {f : Files} {last : Bool} {rootPath path : List UInt8} {p r : Place}
  {names : List (List UInt8)}

theorem IsRoot.directory (h : IsRoot f.tree rootPath) :
    f.tree.isDirectory (rootPlace rootPath) = true := by
  have hclear := h.clear (segments rootPath).length
  rwa [List.take_length] at hclear

theorem lookup_render (h : ∀ name ∈ names, IsName name) (f : Files) (last : Bool) :
    f.lookup last (render true names) = f.tree.walk dot dotdot last maxLinks [] names := by
  have hne : render true names ≠ [] := by simp [render]
  rw [lookup, if_neg hne, isAbsolute_render h, if_pos rfl, pathNames, segments_render h]
  by_cases hnames : names = []
  · rw [hnames]
    rfl
  · obtain ⟨u, c, hc, hu⟩ := exists_render_concat h hnames true
    rw [hu, List.getLast?_concat, if_neg (by simpa using hc), List.append_nil]

/-- A walk along normal names to a directory meets no link. -/
theorem walk_normal {t : Tree} (hnormal : IsNormal names)
    (h : t.isDirectory (resolve dot dotdot [] names) = true) (links : Nat) :
    t.walk dot dotdot last links [] names = .ok (resolve dot dotdot [] names) := by
  cases names with
  | nil => cases links <;> rfl
  | cons first names =>
    have hrest : ∀ name ∈ names, name ≠ dotdot := fun name hname heq =>
      hnormal name hname (heq ▸ List.prefix_rfl)
    by_cases hfirst : first = dotdot
    · rw [hfirst, resolve_cons] at h ⊢
      have henter : enter dot dotdot [] dotdot = [] := by decide
      have hwalk : t.walk dot dotdot last links [] (dotdot :: names) =
          t.walk dot dotdot last links [] names := by
        cases links <;>
          · rw [walk, follow, if_neg (by decide), if_pos rfl]
            rfl
      rw [henter, resolve_of_forall_ne hrest] at h ⊢
      rw [hwalk, walk_directory hrest h]
    · have hnames : ∀ name ∈ first :: names, name ≠ dotdot :=
        List.forall_mem_cons.mpr ⟨hfirst, hrest⟩
      rw [resolve_of_forall_ne hnames] at h ⊢
      exact walk_directory hnames h

theorem realpath_cases {real : List UInt8} (h : f.realpath path = real) (hreal : real ≠ []) :
    ∃ p e, f.lookup true path = .ok p ∧ f.tree.entry p = some e ∧ real = render true p := by
  rw [realpath] at h
  split at h
  · exact absurd h.symm hreal
  · rename_i p hp
    split at h
    · rename_i hsome
      obtain ⟨e, he⟩ := Option.isSome_iff_exists.mp hsome
      exact ⟨p, e, hp, he, h.symm⟩
    · exact absurd h.symm hreal

/-- What a walk ends at is where the walk along its place ends. -/
theorem lookup_place {e : Entry (List UInt8) Attr} (he : f.tree.entry p = some e)
    (hlink : ∀ absolute target, e ≠ .link absolute target) (last : Bool) :
    f.lookup last (render true p) = .ok p := by
  have hnames := f.tree.names p (Option.isSome_iff_exists.mpr ⟨e, he⟩)
  rw [lookup_render fun name hname => (hnames name hname).1,
    walk_entry (fun name hname => (hnames name hname).2) (by rwa [List.nil_append]) hlink,
    List.nil_append]

theorem Missing.free (h : f.Missing rootPath path)
    (hp : f.lookup true (candidate rootPath path) = .ok p) : f.tree.entry p = none := by
  have hreal := h.2
  rw [realpath, hp] at hreal
  dsimp only at hreal
  split at hreal
  · simp [render] at hreal
  · rename_i hnone
    simpa using hnone

section Jail

variable (hnormal : resolve dot dotdot [] (rootNames rootPath) = r)
  (hroot : f.tree.isDirectory r = true)

include hnormal hroot

theorem lookup_root (last : Bool) : f.lookup last (render true (rootNames rootPath)) = .ok r := by
  have hnames : IsNormal (rootNames rootPath) := isNormal_normalNames _
  rw [lookup_render (isName_rootNames rootPath), walk_normal hnames (hnormal ▸ hroot), hnormal]

/-- A jailed path leads under the root, unless it is missing. -/
theorem lookup_jail (habsolute : isAbsolute rootPath = true)
    (hp : f.lookup last (jail f.realpath rootPath path) = .ok p) :
    r <+: p ∨ f.Missing rootPath path ∧ f.lookup last (candidate rootPath path) = .ok p := by
  have hne : rootPath ≠ [] := by
    rintro rfl
    cases habsolute
  have hjail : isJailAbsolute rootPath = true := by rw [isJailAbsolute, habsolute, Bool.true_or]
  have hatRoot : f.lookup last (render true (rootNames rootPath)) = .ok p → r <+: p := by
    rw [lookup_root hnormal hroot, Except.ok.injEq]
    rintro rfl
    exact List.prefix_rfl
  rw [jail_eq hne, hjail, habsolute] at hp
  split at hp
  · rename_i hunder
    dsimp only at hp
    split at hp
    · rename_i hreal
      split at hp
      · rename_i hinside
        obtain ⟨q, e, hq, he, hrender⟩ := realpath_cases rfl hreal
        have hend := isEnd_walk f.tree.isDirectory_root
          ((lookup_render isName_jailNames f true).symm.trans hq)
        rw [hrender, lookup_place he fun absolute target heq => hend.link rfl absolute target
          (heq ▸ he), Except.ok.injEq] at hp
        subst hp
        refine .inl ?_
        by_cases hnil : rootNames rootPath = []
        · rw [← hnormal, hnil]
          exact List.nil_prefix
        · rw [hrender] at hinside
          have hnames := f.tree.names q (Option.isSome_iff_exists.mpr ⟨e, he⟩)
          have hname : ∀ name ∈ q, IsName name := fun name hmem => (hnames name hmem).1
          obtain ⟨-, hbelow⟩ := prefix_of_underRoot hnil (isAbsolute_render hname true)
            (habsolute.symm ▸ hinside)
          rw [segments_render hname] at hbelow
          have hplain : ∀ name ∈ rootNames rootPath, name ≠ dot ∧ name ≠ dotdot :=
            fun name hmem => (hnames name (hbelow.subset hmem)).2
          rw [resolve_of_forall_ne fun name hmem => (hplain name hmem).2, List.nil_append,
            List.filter_eq_self.mpr fun name hmem => by simpa using (hplain name hmem).1] at hnormal
          rwa [← hnormal]
      · exact .inl (hatRoot hp)
    · rename_i hreal
      rw [not_not] at hreal
      exact .inr ⟨⟨hunder, hreal⟩, hp⟩
  · exact .inl (hatRoot hp)

end Jail

end Sihd.Sys.Files
