import Sihd.Lib.Transition
import Sihd.Ssh.SshSubsystemSftp
import Sihd.Sys.FileTouches
import Sihd.Sys.Files

/-!
# What a client can touch

A client should touch nothing that is not under the root. `isConfined_of_staysIn` says that it
does not as long as a path that leads to nothing yet is not led out of the root by the links
on its way: such a path is jailed by its names only.
-/

namespace Sihd.Ssh.World

open FileTree Sys Files Path LexicalPath

/-- What a request touches is under the root. -/
def IsConfined (r : Place) (w : World) (request : Request) : Prop :=
  ∀ touch ∈ (w.handle request).2.2, touch.Inside w.files.tree r

/-- A path that leads to nothing yet does not lead out of the root. -/
def AddsIn (w : World) (r : Place) (last : Bool) (path : List UInt8) : Prop :=
  w.files.Missing w.rootPath path →
    ∀ p, w.files.lookup last (candidate w.rootPath path) = .ok p →
      w.files.tree.entry p = none → r <+: p

/-- A path to a link that leads to nothing does not lead out of the root. -/
def RemovesIn (w : World) (r : Place) (path : List UInt8) : Prop :=
  w.files.Missing w.rootPath path →
    ∀ p, w.files.lookup false (candidate w.rootPath path) = .ok p →
      (w.files.tree.entry p).isSome → r <+: p

/-- The root is not what is to be removed, unless it is not empty. -/
def KeepsRoot (w : World) (r : Place) (path : List UInt8) : Prop :=
  w.files.lookup false (w.resolvePath path) = .ok r → ¬ w.files.tree.IsEmptyAt r

/-- No link leads a path that is not there in full out of the root, and the root is not
removed. -/
def StaysIn (r : Place) (w : World) : Request → Prop
  | .file (.open path flags _) => (openMode flags).creates = true → w.AddsIn r true path
  | .file _ => True
  | .mkdir path _ => w.AddsIn r false path
  | .rmdir path => w.RemovesIn r path ∧ w.KeepsRoot r path
  | .remove path => w.RemovesIn r path ∧ w.KeepsRoot r path
  | .rename source target =>
      w.RemovesIn r source ∧ w.RemovesIn r target ∧ w.AddsIn r false target
  | .setstat _ _ => True
  | .symlink _ link => w.AddsIn r false link

/-- The root is where the paths are jailed, and the files that are open are under it. -/
structure Holds (r : Place) (w : World) : Prop where
  absolute : isAbsolute w.rootPath = true
  normal : resolve dot dotdot [] (rootNames w.rootPath) = r
  root : w.files.tree.isDirectory r = true
  held : ∀ handle file id, w.handleToFile.find handle = some file → file.file = some id →
    ∀ p, w.files.tree.entry p = some (.file id) → r <+: p

/-- A response that touches nothing outside the root, and keeps it. -/
structure Safe (r : Place) (w : World) (response : Response) : Prop where
  inside : ∀ touch ∈ response.2.2, touch.Inside w.files.tree r
  holds : response.1.Holds r

/-- A change that is asked for or not sets what its path leads to. -/
theorem setsOnly_whenAsked {γ : Type} {f f' : Files} {asked : Option γ} {change : γ → Files.Outcome}
    {path : List UInt8} {touched : List Touch}
    (hchange : ∀ value f' touched, change value = .ok (f', touched) →
      f.SetsOnly f' path touched) (h : whenAsked f asked change = .ok (f', touched)) :
    f.SetsOnly f' path touched := by
  unfold whenAsked at h
  split at h
  · cases h
    exact setsOnly_refl f path
  · exact hchange _ f' touched h

/-- The permissions of a file that was opened are set where its path led. -/
theorem setsOnly_chmod {f : Files} {path : List UInt8} (asked : Option (BitVec 32)) :
    f.SetsOnly ((whenAsked f asked (f.chmod path)).toOption.getD (f, [])).1 path
      ((whenAsked f asked (f.chmod path)).toOption.getD (f, [])).2 := by
  cases hasked : whenAsked f asked (f.chmod path) with
  | error errno => exact setsOnly_refl f path
  | ok result =>
    exact setsOnly_whenAsked (fun _ _ _ hok => (setAttr_ok hok).elim fun _ => Sets.only) hasked

variable {w w' : World} {r : Place} {path : List UInt8} {files : Files} {touched : List Touch}
  {p : Place} {last : Bool}

theorem Holds.lookup_inside (h : w.Holds r)
    (hp : w.files.lookup last (w.resolvePath path) = .ok p) :
    r <+: p ∨ w.files.Missing w.rootPath path ∧
      w.files.lookup last (candidate w.rootPath path) = .ok p :=
  lookup_jail h.normal h.root h.absolute hp

/-- A step that changes entries under the root, and opens files under it. -/
theorem Holds.next (h : w.Holds r) (hpath : w'.rootPath = w.rootPath) {changed : List Place}
    (hkeeps : w.files.tree.Keeps w'.files.tree changed)
    (hchanged : ∀ p ∈ changed, r <+: p ∧ p ≠ r)
    (hheld : ∀ handle file id, w'.handleToFile.find handle = some file → file.file = some id →
      (∃ handle' file', w.handleToFile.find handle' = some file' ∧ file'.file = some id) ∨
        ∀ p, w'.files.tree.entry p = some (.file id) → r <+: p) : w'.Holds r where
  absolute := hpath ▸ h.absolute
  normal := hpath ▸ h.normal
  root := by
    rw [hkeeps.directory r fun p hp hbelow => ?_]
    · exact h.root
    · obtain ⟨hinside, hne⟩ := hchanged p hp
      exact hne (hbelow.eq_of_length_le hinside.length_le)
  held handle file id hfind hid p hp := by
    rcases hheld handle file id hfind hid with ⟨handle', file', hfind', hid'⟩ | hnew
    · rcases hkeeps.file p id hp with hold | ⟨q, hq, hbelow⟩
      · exact h.held handle' file' id hfind' hid' p hold
      · exact (hchanged q hq).1.trans hbelow
    · exact hnew p hp

/-- The same streams on other files. -/
theorem Holds.setFiles (h : w.Holds r) {changed : List Place}
    (hkeeps : w.files.tree.Keeps files.tree changed)
    (hchanged : ∀ p ∈ changed, r <+: p ∧ p ≠ r) : { w with files := files }.Holds r :=
  h.next rfl hkeeps hchanged fun handle file _ hfind hid => .inl ⟨handle, file, hfind, hid⟩

theorem Holds.safe (h : w.Holds r) (reply : Reply) : w.Safe r (w, reply, []) :=
  ⟨fun _ hmem => (by cases hmem), h⟩

theorem Holds.safe_replyOutcome (h : w.Holds r) {outcome : Files.Outcome}
    (hok : ∀ files touched, outcome = .ok (files, touched) →
      files = w.files ∧ touched = [] ∨ ∃ changed, touched = changed.map .entry ∧
        w.files.tree.Keeps files.tree changed ∧ ∀ p ∈ changed, r <+: p ∧ p ≠ r)
    (special : Errno) (code : Status) : w.Safe r (w.replyOutcome outcome special code) := by
  unfold replyOutcome
  split
  · exact h.safe _
  · rename_i files touched
    rcases hok files touched rfl with ⟨rfl, rfl⟩ | ⟨changed, rfl, hkeeps, hchanged⟩
    · exact h.safe _
    · refine ⟨fun touch hmem => ?_, h.setFiles hkeeps hchanged⟩
      obtain ⟨p, hp, rfl⟩ := List.mem_map.mp hmem
      exact hchanged p hp

theorem findFile_some {handle : Option (List UInt8)} {handle' : List UInt8} {file : File}
    (h : w.findFile handle = some (handle', file)) :
    w.handleToFile.find handle' = some file := by
  obtain ⟨bytes, -, hbytes⟩ := Option.bind_eq_some_iff.mp h
  obtain ⟨file', hfind, heq⟩ := Option.map_eq_some_iff.mp hbytes
  cases heq
  exact hfind

section Entries

variable (h : w.Holds r)

include h

/-- An entry that is added is below the root. -/
theorem Holds.adds (hin : w.AddsIn r last path)
    (hadds : w.files.Adds files last (w.resolvePath path) touched p) : r <+: p ∧ p ≠ r := by
  refine ⟨?_, ?_⟩
  · rcases h.lookup_inside hadds.lookup with hinside | ⟨hmissing, hlookup⟩
    · exact hinside
    · exact hin hmissing p hlookup hadds.free
  · rintro rfl
    exact absurd hadds.free (Option.isSome_iff_ne_none.mp (isSome_of_isDirectory h.root))

theorem Holds.removes (hin : w.RemovesIn r path)
    (hp : w.files.lookup false (w.resolvePath path) = .ok p)
    (htaken : (w.files.tree.entry p).isSome) : r <+: p := by
  rcases h.lookup_inside hp with hinside | ⟨hmissing, hlookup⟩
  · exact hinside
  · exact hin hmissing p hlookup htaken

theorem safe_handleMkdir (hin : w.AddsIn r false path) (attrs : Option SftpAttributes) :
    w.Safe r (w.handleMkdir path attrs) := by
  refine h.safe_replyOutcome (fun files touched hok => ?_) _ _
  rcases makeDirectory_ok hok with hsame | ⟨p, hadds⟩
  · exact .inl hsame
  · refine .inr ⟨[p], hadds.touched, hadds.keeps, fun q hq => ?_⟩
    rw [List.mem_singleton.mp hq]
    exact h.adds hin hadds

theorem safe_handleSymlink (hin : w.AddsIn r false path) (target : List UInt8) :
    w.Safe r (w.handleSymlink target path) := by
  refine h.safe_replyOutcome (fun files touched hok => ?_) _ _
  obtain ⟨p, hadds⟩ := symlink_ok hok
  refine .inr ⟨[p], hadds.touched, hadds.keeps, fun q hq => ?_⟩
  rw [List.mem_singleton.mp hq]
  exact h.adds hin hadds

/-- What is removed is below the root when it is not the root. -/
theorem safe_removes (hin : w.RemovesIn r path) (hroot : w.KeepsRoot r path)
    {outcome : Files.Outcome} (hok : ∀ files touched, outcome = .ok (files, touched) →
      ∃ p, w.files.Removes files (w.resolvePath path) touched p) :
    w.Safe r (w.replyOutcome outcome .noEntry .noSuchFile) := by
  refine h.safe_replyOutcome (fun files touched hfiles => ?_) _ _
  obtain ⟨p, hremoves⟩ := hok files touched hfiles
  refine .inr ⟨[p], hremoves.touched, hremoves.keeps, fun q hq => ?_⟩
  rw [List.mem_singleton.mp hq]
  refine ⟨h.removes hin hremoves.lookup hremoves.taken, ?_⟩
  rintro rfl
  exact hroot hremoves.lookup hremoves.empty

theorem safe_handleRename {target : List UInt8} (hin : w.RemovesIn r path)
    (hin' : w.RemovesIn r target) (hadds : w.AddsIn r false target) :
    w.Safe r (w.handleRename path target) := by
  refine h.safe_replyOutcome (fun files touched hok => ?_) _ _
  rcases rename_ok hok with hsame | ⟨p, q, hmoves⟩
  · exact .inl hsame
  · have hp := h.removes hin hmoves.lookup hmoves.taken
    have hq : r <+: q := by
      rcases h.lookup_inside hmoves.lookup' with hinside | ⟨hmissing, hlookup⟩
      · exact hinside
      · cases hentry : w.files.tree.entry q with
        | none => exact hadds hmissing q hlookup hentry
        | some e => exact hin' hmissing q hlookup (by rw [hentry]; rfl)
    -- The root is not moved to a place below it, and it is not empty.
    have hpne : p ≠ r := by
      rintro rfl
      exact hmoves.canMove.apart hq
    have hqne : q ≠ r := by
      rintro rfl
      have hnone := hmoves.canMove.empty.entry hp hpne
      exact absurd hmoves.taken (by rw [hnone]; simp)
    refine .inr ⟨[p, q], hmoves.touched, hmoves.keeps, fun s hs => ?_⟩
    rw [List.mem_cons, List.mem_singleton] at hs
    rcases hs with rfl | rfl
    · exact ⟨hp, hpne⟩
    · exact ⟨hq, hqne⟩

end Entries

/-! ### Attributes and streams -/

section Files

variable (h : w.Holds r)

include h

/-- What is there where a path leads is under the root. -/
theorem Holds.inside_of_isSome (hp : w.files.lookup true (w.resolvePath path) = .ok p)
    (htaken : (w.files.tree.entry p).isSome) : r <+: p := by
  rcases h.lookup_inside hp with hinside | ⟨hmissing, hlookup⟩
  · exact hinside
  · exact absurd (hmissing.free hlookup) (Option.isSome_iff_ne_none.mp htaken)

theorem Holds.safe_sets (hsets : w.files.SetsOnly files (w.resolvePath path) touched)
    (reply : Reply) : w.Safe r ({ w with files := files }, reply, touched) := by
  refine ⟨fun touch hmem => ?_, h.setFiles hsets.alike.keeps fun _ hq => by cases hq⟩
  obtain ⟨p, rfl, hlookup, htaken⟩ := hsets.touched touch hmem
  exact h.inside_of_isSome hlookup htaken

theorem safe_handleSetstat (attrs : Option SftpAttributes) :
    w.Safe r (w.handleSetstat path attrs) := by
  unfold handleSetstat
  split
  · exact h.safe _
  · rename_i attrs
    dsimp only
    split
    · exact h.safe _
    · rename_i files touched hchmod
      have hfirst : w.files.SetsOnly files (w.resolvePath path) touched :=
        setsOnly_whenAsked (fun _ _ _ hok => (setAttr_ok hok).elim fun _ => Sets.only) hchmod
      split
      · exact h.safe_sets hfirst _
      · rename_i files' touched' hchown
        have hsecond := hfirst.trans (setsOnly_whenAsked
          (fun _ _ _ hok => (setAttr_ok hok).elim fun _ => Sets.only) hchown)
        split
        · exact h.safe_sets hsecond _
        · rename_i files'' touched'' htruncate
          exact h.safe_sets (hsecond.trans (setsOnly_whenAsked
            (fun _ _ _ hok => (truncate_ok hok).elim fun _ => Sets.only) htruncate)) _

/-- A file that is opened is under the root, and so is what is touched. -/
theorem Holds.opens {create : Bool} {file : Option Nat} {files' : Files}
    {touched' : List Touch} (hin : create = true → w.AddsIn r true path)
    (hopens : w.files.Opens (w.resolvePath path) create files touched file)
    (hsets : files.SetsOnly files' (w.resolvePath path) touched') :
    (∀ touch ∈ touched ++ touched', touch.Inside w.files.tree r) ∧
      (∃ changed, w.files.tree.Keeps files'.tree changed ∧ ∀ p ∈ changed, r <+: p ∧ p ≠ r) ∧
      ∀ id, file = some id → ∀ p, files'.tree.entry p = some (.file id) → r <+: p := by
  cases hopens with
  | directory =>
    refine ⟨(h.safe_sets hsets (.status .ok "")).inside, ⟨[], hsets.alike.keeps, ?_⟩, ?_⟩
    · exact fun _ hq => by cases hq
    · exact fun _ hid => by cases hid
  | @present _ _ id p hlookup hentry htree hcwd htouched =>
    have htaken : (w.files.tree.entry p).isSome := by
      rw [hentry]
      rfl
    have hinside := h.inside_of_isSome hlookup htaken
    have hsame : w.files.tree.Alike files.tree := htree ▸ alike_refl _
    refine ⟨fun touch hmem => ?_, ⟨[], (hsame.trans hsets.alike).keeps, ?_⟩, ?_⟩
    · rcases List.mem_append.mp hmem with hmem | hmem
      · rw [List.mem_singleton.mp (htouched hmem)]
        exact hinside
      · obtain ⟨q, rfl, hq, hqtaken⟩ := hsets.touched touch hmem
        rw [lookup_congr hsame hcwd] at hq
        exact h.inside_of_isSome hq (htree ▸ hqtaken)
    · exact fun _ hq => by cases hq
    · intro id' hid' q hq
      cases hid'
      rcases hsets.alike.keeps.file q id hq with hold | ⟨_, hmem, -⟩
      · exact w.files.tree.once p q id hentry (htree ▸ hold) ▸ hinside
      · cases hmem
  | @created _ p hlookup hadd hcreate htree hcwd =>
    have hadds : w.files.Adds files true (w.resolvePath path) [.entry p] p :=
      ⟨hlookup, hadd.entry, rfl, htree ▸ keeps_add _ hadd⟩
    obtain ⟨hinside, hne⟩ := h.adds (hin hcreate) hadds
    have hwalk : files.lookup true (w.resolvePath path) = .ok p := by
      rw [lookup] at hlookup ⊢
      split at hlookup
      · cases hlookup
      · rename_i hpath
        rw [if_neg hpath, htree, hcwd]
        exact walk_add hadd hlookup
    have hnew : files.tree.entry p = some (.file w.files.tree.next) := by
      rw [htree]
      exact Function.update_self _ _ _
    refine ⟨fun touch hmem => ?_, ⟨[p], ?_, fun q hq => ?_⟩, ?_⟩
    · rcases List.mem_append.mp hmem with hmem | hmem
      · rw [List.mem_singleton.mp hmem]
        exact ⟨hinside, hne⟩
      · obtain ⟨q, rfl, hq, -⟩ := hsets.touched touch hmem
        rw [hwalk, Except.ok.injEq] at hq
        exact hq ▸ hinside
    · exact hadds.keeps.trans hsets.alike.keeps
    · exact List.mem_singleton.mp hq ▸ ⟨hinside, hne⟩
    · intro id hid q hq
      cases hid
      rcases hsets.alike.keeps.file q _ hq with hold | ⟨_, hmem, -⟩
      · exact files.tree.once p q _ hnew hold ▸ hinside
      · cases hmem

theorem safe_handleOpen {flags : OpenFlags}
    (hin : (openMode flags).creates = true → w.AddsIn r true path)
    (attrs : Option SftpAttributes) : w.Safe r (w.handleOpen path flags attrs) := by
  unfold handleOpen
  dsimp only
  split
  · exact h.safe _
  · rename_i files touched file hopen
    obtain ⟨hinside, ⟨changed, hkeeps, hchanged⟩, hnew⟩ := h.opens hin (File.openFile_ok hopen)
      (setsOnly_chmod (if flags.creat then attrs.bind SftpAttributes.permissions else none))
    refine ⟨hinside, h.next rfl hkeeps hchanged fun handle file' id hfind hid => ?_⟩
    dsimp only at hfind
    split at hfind
    · exact .inl ⟨handle, file', hfind, hid⟩
    · rw [OrderedMap.find_set] at hfind
      split at hfind
      · rw [Option.some.injEq] at hfind
        exact .inr (hnew id (hfind ▸ hid))
      · exact .inl ⟨handle, file', hfind, hid⟩

/-- A stream touches the content of its file only. -/
theorem Holds.touchedFile_inside {handle : List UInt8} {file file' : File}
    (hfind : w.handleToFile.find handle = some file) (hfile : file'.file = file.file) :
    ∀ touch ∈ touchedFile file', touch.Inside w.files.tree r := by
  intro touch hmem
  rw [touchedFile] at hmem
  split at hmem
  · cases hmem
  · rename_i id hid
    split at hmem
    · rw [List.mem_singleton.mp hmem]
      exact h.held handle file id hfind (hfile ▸ hid)
    · cases hmem

/-- The files with a stream in place of one on the same file. -/
theorem Holds.setFile {handle : List UInt8} {file file' : File}
    (hfind : w.handleToFile.find handle = some file) (hfile : file'.file = file.file)
    (htree : files.tree = w.files.tree) : (w.setFile files handle file').Holds r := by
  have hkeeps : w.files.tree.Keeps files.tree [] := htree ▸ keeps_refl _
  refine h.next rfl hkeeps (fun _ hq => by cases hq) fun handle' file'' id hfind' hid => ?_
  rw [World.setFile, OrderedMap.find_set] at hfind'
  split at hfind'
  · rw [Option.some.injEq] at hfind'
    exact .inl ⟨handle, file, hfind, by rw [← hfile, hfind', hid]⟩
  · exact .inl ⟨handle', file'', hfind', hid⟩

theorem safe_handleRead (handle : Option (List UInt8)) (offset len : Nat) (keep : Bool)
    (ahead : Nat) : w.Safe r (w.handleRead handle offset len keep ahead) := by
  unfold handleRead
  split
  · exact h.safe _
  · rename_i handle' file hfile
    have hfind := findFile_some hfile
    split
    · exact h.safe _
    · rename_i files file' hseek
      obtain ⟨htree, hsame, -⟩ := File.seekBegin_some hseek
      have hread := (file'.file_read files len ahead).trans hsame
      exact ⟨h.touchedFile_inside hfind hread, h.setFile hfind hread htree⟩

theorem safe_handleWrite (handle : Option (List UInt8)) (offset : Nat)
    (data : Option (List UInt8)) (wait : Nat) :
    w.Safe r (w.handleWrite handle offset data wait) := by
  unfold handleWrite
  split
  · exact h.safe _
  · rename_i handle' file hfile
    have hfind := findFile_some hfile
    split
    · exact h.safe _
    · rename_i data
      split
      · exact h.safe _
      · rename_i files file' hseek
        obtain ⟨htree, hsame, -⟩ := File.seekBegin_some hseek
        refine ⟨h.touchedFile_inside hfind hsame, h.setFile hfind hsame ?_⟩
        exact (file'.tree_setContent files _).trans htree

theorem safe_handleClose (handle : Option (List UInt8)) : w.Safe r (w.handleClose handle) := by
  unfold handleClose
  split
  · exact h.safe _
  · split
    · exact h.safe _
    · rename_i file hfind
      refine ⟨h.touchedFile_inside hfind rfl, ?_⟩
      have hkeeps : w.files.tree.Keeps (file.flush w.files).tree [] :=
        file.tree_flush w.files ▸ keeps_refl _
      refine h.next rfl hkeeps (fun _ hq => by cases hq) fun handle' file' id hfind' hid => ?_
      have hold := OrderedMap.find_of_find_erase hfind'
      exact .inl ⟨handle', file', hold, hid⟩

end Files

/-- A request that stays in the root touches nothing outside it. -/
theorem Holds.safe_handle (h : w.Holds r) {request : Request} (hin : w.StaysIn r request) :
    w.Safe r (w.handle request) := by
  cases request with
  | file request =>
    cases request with
    | «open» path flags attrs => exact safe_handleOpen h hin attrs
    | read handle offset len keep ahead => exact safe_handleRead h handle offset len keep ahead
    | write handle offset data wait => exact safe_handleWrite h handle offset data wait
    | fsetstat handle attrs => exact safe_handleSetstat h attrs
    | close handle => exact safe_handleClose h handle
  | mkdir path attrs => exact safe_handleMkdir h hin attrs
  | rmdir path => exact safe_removes h hin.1 hin.2 fun _ _ => rmdir_ok
  | remove path => exact safe_removes h hin.1 hin.2 fun _ _ => remove_ok
  | rename source target => exact safe_handleRename h hin.1 hin.2.1 hin.2.2
  | setstat path attrs => exact safe_handleSetstat h attrs
  | symlink target link => exact safe_handleSymlink h hin target

/-- `set_root_path` keeps the names of a path. -/
theorem segments_setRootPath (path : List UInt8) : segments (setRootPath path) = segments path := by
  rw [setRootPath]
  split
  · rw [segments_append, segments_eq []]
    simp
  · rfl

theorem isAbsolute_setRootPath {path : List UInt8} (h : isAbsolute path = true) :
    isAbsolute (setRootPath path) = true := by
  rw [setRootPath]
  split
  · cases path with
    | nil => cases h
    | cons c path => exact h
  · exact h

/-- Along a run of requests none of which is led out of the root by a link, nothing outside
the root is touched. The normal form of the root must lead to the root. -/
theorem isConfined_of_staysIn {files : Files} {rootPath : List UInt8}
    (hroot : IsRoot files.tree rootPath)
    (hnormal : resolve dot dotdot [] (rootNames rootPath) = rootPlace rootPath)
    {requests : List Request}
    (h : Transition.Along step (fun w request _ => w.StaysIn (rootPlace rootPath) request)
      (start files rootPath) requests) :
    Transition.Along step (fun w request _ => w.IsConfined (rootPlace rootPath) request)
      (start files rootPath) requests := by
  have hstart : (start files rootPath).Holds (rootPlace rootPath) := by
    refine ⟨isAbsolute_setRootPath hroot.absolute, ?_, hroot.directory, ?_⟩
    · change resolve dot dotdot [] (normalNames (segments (setRootPath rootPath))) = _
      rw [segments_setRootPath]
      exact hnormal
    · intro _ _ _ hfind
      cases hfind
  refine h.imp_of_invariant hstart fun w request w' hw hstep hin => ?_
  obtain rfl := Option.some.inj hstep
  exact ⟨(hw.safe_handle hin).inside, (hw.safe_handle hin).holds⟩

/-! ### A root beside another directory -/

/-- `srv` and `etc`. -/
def srvPlace : Place := [[115, 114, 118]]

def etcPlace : Place := [[101, 116, 99]]

def ownedAttr : Attr := ⟨0o755#32, 0, 0⟩

/-- `/srv` and `/etc`, which are empty. -/
def twoDirectories : Files where
  tree := ((FileTree.create IsEntryName ownedAttr).add srvPlace (.directory ownedAttr)
    (by decide)).add etcPlace (.directory ownedAttr) (by decide)
  inodes _ := ⟨[], ownedAttr⟩
  cwd := []
  umask := 0
  uid := 0
  gid := 0

theorem isRoot_srv : IsRoot twoDirectories.tree (render true srvPlace) where
  absolute := by decide
  clear k := by
    have hsegments : segments (render true srvPlace) = srvPlace := by decide +kernel
    rw [hsegments]
    cases k with
    | zero => decide
    | succ k =>
      rw [srvPlace, List.take_succ_cons, List.take_nil]
      decide

/-- A directory is made in the root. -/
theorem isConfined_mkdir : Transition.Along step
    (fun w request _ => w.IsConfined (rootPlace (render true srvPlace)) request)
    (start twoDirectories (render true srvPlace)) [.mkdir [47, 100] none] := by
  refine isConfined_of_staysIn isRoot_srv (by decide +kernel) fun w' hstep => ⟨?_, trivial⟩
  intro _ p hp _
  have hlookup : twoDirectories.lookup false (candidate (setRootPath (render true srvPlace))
      [47, 100]) = .ok (srvPlace ++ [[100]]) := by decide +kernel
  rw [start, hlookup, Except.ok.injEq] at hp
  exact hp ▸ ⟨[[100]], by decide +kernel⟩

/-- A client links to a directory outside the root and creates a file behind the link. -/
theorem not_isConfined : ¬ ∀ (files : Files) (rootPath : List UInt8),
    IsRoot files.tree rootPath → ∀ requests : List Request,
      Transition.Along step (fun w request _ => w.IsConfined (rootPlace rootPath) request)
        (start files rootPath) requests := by
  intro h
  let link : Request := .symlink (render true etcPlace) [47, 108]
  let create : Request := .file (.open [47, 108, 47, 110] ⟨false, true, false, false, true⟩ none)
  have hconfined := ((h twoDirectories (render true srvPlace) isRoot_srv [link, create] _
    rfl).2 _ rfl).1
  have htouched : (((start twoDirectories (render true srvPlace)).handle link).1.handle
      create).2.2 = [.entry (etcPlace ++ [[110]])] := by decide +kernel
  have hinside := hconfined (.entry (etcPlace ++ [[110]])) (htouched ▸ List.mem_cons_self)
  exact absurd hinside.1 (by decide +kernel)

end Sihd.Ssh.World
