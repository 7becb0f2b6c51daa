import Mathlib.Data.List.Infix
import Sihd.Sys.FileWatcher

/-!
# Renames that a file watcher sees

The two halves of a rename are two events with one cookie. A watcher keeps the name of
the first half for the next second half that it sees, whatever their cookies are.
-/

namespace Sihd.Sys

open Inotify (Instance Mask Files)

namespace FileRenames

/-- An event with its name, which is empty where it is not one of an entry. -/
structure Event extends Inotify.Event where
  cookie : UInt32
  name : List UInt8

structure Watcher (π : Type*) extends FileWatcher.Watcher π where
  oldFilename : List UInt8

/-- What is reported, with its names. -/
structure Report (π : Type*) extends FileWatcherEvent π where
  filename : List UInt8
  oldFilename : List UInt8

end FileRenames

/-- `FileWatcher` with the names of the events. -/
structure FileRenames (π : Type*) where
  inotify : Instance
  watchers : List (FileRenames.Watcher π)
  events : List (FileRenames.Report π)

namespace FileRenames

variable {π γ : Type*} [DecidableEq π]

def init : FileRenames π := ⟨.init, [], []⟩

def isWatching (f : FileRenames π) (p : π) : Bool := f.watchers.any fun w => w.path = p

def rmWatch (f : FileRenames π) (p : π) : FileRenames π :=
  match f.watchers.find? fun w => w.path = p with
  | none => f
  | some w =>
    { f with
      inotify := f.inotify.rmWatch w.watchFd
      watchers := f.watchers.eraseP fun w => w.path = p }

def addWatch (files : Files π γ) (f : FileRenames π) (p : π) : FileRenames π :=
  if f.isWatching p then f
  else if !f.inotify.isOpen then f
  else
    match files.inode p with
    | none => f
    | some i =>
      { f with
        inotify := (f.inotify.addWatch i).2
        watchers := f.watchers ++ [⟨⟨p, (f.inotify.addWatch i).1⟩, []⟩] }

def findWatcher (f : FileRenames π) (wd : Nat) : Option (Watcher π) :=
  f.watchers.find? fun w => w.watchFd = wd

/-- The watcher of a path keeps a name. -/
def setOldFilename (f : FileRenames π) (p : π) (name : List UInt8) : FileRenames π :=
  { f with watchers := f.watchers.map fun w => if w.path = p then { w with oldFilename := name } else w }

def emplaceEvent (f : FileRenames π) (e : Report π) : FileRenames π :=
  { f with events := f.events ++ [e] }

/-- One turn of the loop of `handle`. -/
def handleEvent (f : FileRenames π) (e : Event) : FileRenames π :=
  match f.findWatcher e.wd with
  | none => f
  | some watcher =>
    match e.mask with
    | .movedFrom => f.setOldFilename watcher.path e.name
    | .movedTo =>
      (f.setOldFilename watcher.path []).emplaceEvent
        ⟨⟨.renamed, watcher.path⟩, e.name, watcher.oldFilename⟩
    | mask =>
      match FileWatcher.eventType mask with
      | none => f
      | some type =>
        (if type = .terminated then f.rmWatch watcher.path else f).emplaceEvent
          ⟨⟨type, watcher.path⟩, e.name, []⟩

def handle (f : FileRenames π) (l : List Event) : FileRenames π := l.foldl handleEvent f

/-- The paths are watched one after the other. -/
def watchAll (files : Files π γ) (paths : List π) : FileRenames π := paths.foldl (addWatch files) init

/-! ## Without the names -/

/-- The watcher without the names. -/
def toFileWatcher (f : FileRenames π) : FileWatcher π where
  inotify := f.inotify
  watchers := f.watchers.map Watcher.toWatcher
  events := f.events.map Report.toFileWatcherEvent

section Forget

variable (f : FileRenames π) (p : π)

theorem toFileWatcher_rmWatch : (f.rmWatch p).toFileWatcher = f.toFileWatcher.rmWatch p := by
  rw [rmWatch, FileWatcher.rmWatch]
  simp only [toFileWatcher, List.find?_map, Function.comp_def]
  cases f.watchers.find? fun w => w.path = p with
  | none => rfl
  | some w => simp only [Option.map_some, List.eraseP_map, Function.comp_def]

theorem isWatching_toFileWatcher : f.toFileWatcher.isWatching p = f.isWatching p :=
  List.any_map

theorem toFileWatcher_addWatch (files : Files π γ) :
    (f.addWatch files p).toFileWatcher = f.toFileWatcher.addWatch files p := by
  rw [addWatch, FileWatcher.addWatch, isWatching_toFileWatcher]
  have hinotify : f.toFileWatcher.inotify = f.inotify := rfl
  rw [hinotify]
  split
  · rfl
  · split
    · rfl
    · cases files.inode p with
      | none => rfl
      | some i => simp [toFileWatcher]

theorem toFileWatcher_setOldFilename (name : List UInt8) :
    (f.setOldFilename p name).toFileWatcher = f.toFileWatcher := by
  simp only [setOldFilename, toFileWatcher, List.map_map]
  congr 2
  funext w
  rw [Function.comp_apply]
  split <;> rfl

omit [DecidableEq π] in
theorem toFileWatcher_emplaceEvent (e : Report π) :
    (f.emplaceEvent e).toFileWatcher = f.toFileWatcher.emplaceEvent e.toFileWatcherEvent := by
  simp [emplaceEvent, toFileWatcher, FileWatcher.emplaceEvent]

omit [DecidableEq π] in
theorem findWatcher_toFileWatcher (wd : Nat) :
    f.toFileWatcher.findWatcher wd = (f.findWatcher wd).map Watcher.toWatcher :=
  List.find?_map ..

theorem toFileWatcher_handleEvent (e : Event) :
    (f.handleEvent e).toFileWatcher = f.toFileWatcher.handleEvent e.toEvent := by
  rw [handleEvent, FileWatcher.handleEvent, findWatcher_toFileWatcher]
  cases f.findWatcher e.wd with
  | none => rfl
  | some w =>
    rw [Option.map_some]
    cases e.mask <;>
      simp [FileWatcher.eventType, toFileWatcher_emplaceEvent, toFileWatcher_setOldFilename,
        toFileWatcher_rmWatch]

/-- A run without the names. -/
theorem toFileWatcher_handle (l : List Event) :
    (f.handle l).toFileWatcher = f.toFileWatcher.handle (l.map Event.toEvent) := by
  induction l generalizing f with
  | nil => rfl
  | cons e l ih =>
    rw [handle, List.foldl_cons, ← handle, ih, toFileWatcher_handleEvent, List.map_cons,
      FileWatcher.handle_cons]

end Forget

/-! ## What a sequence of events is about -/

/-- The watch of a descriptor ends with such an event. -/
def ends (h : List Event) (wd : Nat) : Bool :=
  h.any fun e => e.wd = wd ∧ FileWatcher.eventType e.mask = some .terminated

/-- The paths that are watched and whose inode has the watch of a descriptor, until it
ends. -/
def registered (f : FileRenames π) (files : Files π γ) (h : List Event) (wd : Nat) : List π :=
  if ends h wd then []
  else (f.watchers.map fun w => w.path).filter fun p =>
    (files.inode p).bind f.inotify.watchOf = some wd

/-- An event is the first half of the rename of another one. -/
def IsFirstHalf (e' e : Event) : Prop :=
  e'.mask = .movedFrom ∧ e'.wd = e.wd ∧ e'.cookie = e.cookie

/-- The old name of a file that is moved in: that of the first half with the cookie, and
none where the file comes from elsewhere. -/
def IsOldFilename (h : List Event) (e : Event) (name : List UInt8) : Prop :=
  (∃ e' ∈ h, IsFirstHalf e' e ∧ name = e'.name) ∨ ((∀ e' ∈ h, ¬ IsFirstHalf e' e) ∧ name = [])

/-- The reports of an event with some events before it, for the paths it is about. -/
def IsReported (paths : List π) (h : List Event) (e : Event) (reports : List (Report π)) : Prop :=
  match e.mask with
  | .movedFrom => reports = []
  | .movedTo => ∃ old, IsOldFilename h e old ∧
      reports.Perm (paths.map fun p => ⟨⟨.renamed, p⟩, e.name, old⟩)
  | mask => ∃ type, type ≠ .renamed ∧ (∀ t, FileWatcher.eventType mask = some t → type = t) ∧
      reports.Perm (paths.map fun p => ⟨⟨type, p⟩, e.name, []⟩)

/-- Every event of a sequence is reported as it should. -/
def ReportsAll (f : FileRenames π) (files : Files π γ) (l : List Event) : Prop :=
  ∀ h e, h ++ [e] <+: l → ∃ reports,
    (f.handle (h ++ [e])).events = (f.handle h).events ++ reports ∧
      IsReported (f.registered files h e.wd) h e reports

/-- The last half of a rename that a descriptor had. -/
def lastHalf (h : List Event) (wd : Nat) : Option Event :=
  h.reverse.find? fun e => e.wd = wd ∧ (e.mask = .movedFrom ∨ e.mask = .movedTo)

/-- The name of a first half that waits for the other one. -/
def pendingName (h : List Event) (wd : Nat) : List UInt8 :=
  match lastHalf h wd with
  | none => []
  | some e => if e.mask = .movedFrom then e.name else []

/-- An event that one watcher can tell about: no other path shares its watch, its kind has
a type, and where it is a second half the last half before it is the other one. -/
def Reportable (paths : List π) (h : List Event) (e : Event) : Prop :=
  paths = [] ∨ e.mask = .movedFrom ∨
    (paths.length = 1 ∧ e.mask ≠ .attrib ∧
      (e.mask = .movedTo → IsOldFilename h e (pendingName h e.wd)))

/-- Watchers that were just made: each has a path of its own and the watch of the inode
that the path has. -/
structure Watching (files : Files π γ) (f : FileRenames π) : Prop where
  nodup : (f.watchers.map fun w => w.path).Nodup
  watchOf : ∀ w ∈ f.watchers, (files.inode w.path).bind f.inotify.watchOf = some w.watchFd
  oldFilename : ∀ w ∈ f.watchers, w.oldFilename = []

/-! ## Runs -/

section Run

variable {f g : FileRenames π} {files : Files π γ} {h l : List Event} {e : Event}

/-- The watchers of `g` are those of `f` whose watch has not ended, and the first one of a
descriptor has the name that waits. -/
structure Synced (f : FileRenames π) (h : List Event) (g : FileRenames π) : Prop where
  watchers : g.toFileWatcher.watchers =
    f.toFileWatcher.watchers.filter fun w => !ends h w.watchFd
  oldFilename : ∀ wd w, g.findWatcher wd = some w → w.oldFilename = pendingName h wd

theorem ends_concat (wd : Nat) : ends (h ++ [e]) wd =
    (ends h wd || decide (e.wd = wd ∧ FileWatcher.eventType e.mask = some .terminated)) := by
  simp [ends]

theorem lastHalf_concat (wd : Nat) : lastHalf (h ++ [e]) wd =
    if e.wd = wd ∧ (e.mask = .movedFrom ∨ e.mask = .movedTo) then some e else lastHalf h wd := by
  rw [lastHalf, List.reverse_append, List.reverse_singleton, List.singleton_append,
    List.find?_cons]
  split <;> simp_all [lastHalf]

theorem pendingName_concat_of_not (wd : Nat)
    (hnot : ¬ (e.wd = wd ∧ (e.mask = .movedFrom ∨ e.mask = .movedTo))) :
    pendingName (h ++ [e]) wd = pendingName h wd := by
  rw [pendingName, lastHalf_concat, if_neg hnot, ← pendingName]

theorem pendingName_concat_movedFrom (hmask : e.mask = .movedFrom) :
    pendingName (h ++ [e]) e.wd = e.name := by
  rw [pendingName, lastHalf_concat, if_pos ⟨rfl, .inl hmask⟩]
  exact if_pos hmask

theorem pendingName_concat_movedTo (hmask : e.mask = .movedTo) :
    pendingName (h ++ [e]) e.wd = [] := by
  rw [pendingName, lastHalf_concat, if_pos ⟨rfl, .inr hmask⟩]
  exact if_neg (by simp [hmask])

/-- What one turn adds to the events. -/
def reportsOf (f : FileRenames π) (e : Event) : List (Report π) :=
  match f.findWatcher e.wd with
  | none => []
  | some watcher =>
    match e.mask with
    | .movedFrom => []
    | .movedTo => [⟨⟨.renamed, watcher.path⟩, e.name, watcher.oldFilename⟩]
    | mask => ((FileWatcher.eventType mask).map fun type =>
        ⟨⟨type, watcher.path⟩, e.name, []⟩).toList

theorem events_rmWatch (f : FileRenames π) (p : π) : (f.rmWatch p).events = f.events := by
  rw [rmWatch]
  split <;> rfl

theorem watchers_rmWatch (f : FileRenames π) (p : π) :
    (f.rmWatch p).watchers = f.watchers.eraseP fun w => w.path = p := by
  rw [rmWatch]
  split
  · next hnone => exact (List.eraseP_of_forall_not (List.find?_eq_none.mp hnone)).symm
  · rfl

theorem events_handleEvent (f : FileRenames π) (e : Event) :
    (f.handleEvent e).events = f.events ++ f.reportsOf e := by
  rw [handleEvent, reportsOf]
  cases f.findWatcher e.wd with
  | none => simp
  | some w =>
    cases e.mask <;>
      simp [FileWatcher.eventType, setOldFilename, emplaceEvent, events_rmWatch]

theorem handle_concat (f : FileRenames π) (h : List Event) (e : Event) :
    f.handle (h ++ [e]) = (f.handle h).handleEvent e := by
  simp [handle]

omit [DecidableEq π] in
theorem Synced.nodup_path (hsynced : Synced f h g) (hnodup : (f.watchers.map fun w => w.path).Nodup) :
    (g.watchers.map fun w => w.path).Nodup := by
  have hpaths : ∀ f : FileRenames π, (f.watchers.map fun w => w.path) =
      f.toFileWatcher.watchers.map FileWatcher.Watcher.path := fun f => by
    simp [toFileWatcher, Function.comp_def]
  rw [hpaths, hsynced.watchers]
  rw [hpaths] at hnodup
  exact hnodup.sublist (List.filter_sublist.map _)

omit [DecidableEq π] in
theorem findWatcher_eq_head? (f : FileRenames π) (wd : Nat) :
    f.findWatcher wd = (f.watchers.filter fun w => w.watchFd = wd).head? :=
  (List.head?_filter ..).symm

omit [DecidableEq π] in
theorem registered_eq (hwatching : Watching files f) (hsynced : Synced f h g) (wd : Nat) :
    f.registered files h wd =
      (g.watchers.filter fun w => w.watchFd = wd).map fun w => w.path := by
  have hpaths : ((g.watchers.filter fun w => w.watchFd = wd).map fun w => w.path) =
      (g.toFileWatcher.watchers.filter fun w => w.watchFd = wd).map FileWatcher.Watcher.path := by
    simp [toFileWatcher, List.filter_map, Function.comp_def]
  have hfd : (f.watchers.map fun w => w.path).filter (fun p =>
      (files.inode p).bind f.inotify.watchOf = some wd) =
      (f.toFileWatcher.watchers.filter fun w => w.watchFd = wd).map FileWatcher.Watcher.path := by
    simp only [toFileWatcher, List.filter_map, List.map_map, Function.comp_def]
    congr 1
    refine List.filter_congr fun w hw => ?_
    simp [hwatching.watchOf w hw]
  rw [registered, hpaths, hsynced.watchers, List.filter_filter, hfd]
  cases hends : ends h wd with
  | true =>
    rw [if_pos rfl, eq_comm, List.map_eq_nil_iff, List.filter_eq_nil_iff]
    intro w _ hw
    simp only [Bool.and_eq_true, decide_eq_true_eq] at hw
    simp [hw.1, hends] at hw
  | false =>
    rw [if_neg (by simp)]
    congr 1
    refine List.filter_congr fun w _ => ?_
    by_cases hw : w.watchFd = wd
    · simp [hw, hends]
    · simp [hw]

theorem exists_isOldFilename (h : List Event) (e : Event) : ∃ old, IsOldFilename h e old := by
  by_cases hfirst : ∃ e' ∈ h, IsFirstHalf e' e
  · obtain ⟨e', he', hhalf⟩ := hfirst
    exact ⟨e'.name, .inl ⟨e', he', hhalf, rfl⟩⟩
  · push Not at hfirst
    exact ⟨[], .inr ⟨hfirst, rfl⟩⟩

omit [DecidableEq π] in
/-- What is registered is what the first watcher that is found tells about, and others. -/
theorem registered_cases (hwatching : Watching files f) (hsynced : Synced f h g) (wd : Nat) :
    (f.registered files h wd = [] ∧ g.findWatcher wd = none) ∨
      ∃ w rest, f.registered files h wd = w.path :: rest ∧ g.findWatcher wd = some w ∧
        w.oldFilename = pendingName h wd := by
  rw [registered_eq hwatching hsynced, findWatcher_eq_head?]
  cases hfilter : g.watchers.filter fun w => w.watchFd = wd with
  | nil => exact .inl ⟨rfl, rfl⟩
  | cons w rest =>
    refine .inr ⟨w, rest.map fun w => w.path, rfl, rfl, hsynced.oldFilename wd w ?_⟩
    rw [findWatcher_eq_head?, hfilter, List.head?_cons]

omit [DecidableEq π] in
/-- Where no path is registered, nothing is to be reported. -/
theorem isReported_nil (h : List Event) (e : Event) :
    IsReported ([] : List π) h e [] := by
  rw [IsReported]
  split
  · rfl
  · obtain ⟨old, hold⟩ := exists_isOldFilename h e
    exact ⟨old, hold, .nil⟩
  · next hfrom hto =>
    refine ⟨(FileWatcher.eventType e.mask).getD .unknown, ?_, fun t ht => by rw [ht]; rfl, .nil⟩
    cases hmask : e.mask <;> simp_all [FileWatcher.eventType]

theorem singleton_perm_map {α β : Type*} {k : α → β} {x : β} {a : α} {rest : List α} :
    [x].Perm ((a :: rest).map k) ↔ rest = [] ∧ x = k a := by
  rw [List.singleton_perm, List.map_cons]
  simp [and_comm, eq_comm]

omit [DecidableEq π] in
theorem isReported_reportsOf_iff (hwatching : Watching files f) (hsynced : Synced f h g)
    (e : Event) : IsReported (f.registered files h e.wd) h e (g.reportsOf e) ↔
      Reportable (f.registered files h e.wd) h e := by
  rw [reportsOf, Reportable]
  obtain ⟨hpaths, hfind⟩ | ⟨w, rest, hpaths, hfind, hold⟩ := registered_cases hwatching hsynced e.wd
  · simp only [hpaths, hfind, isReported_nil, true_or]
  · have hlength : (w.path :: rest).length = 1 ↔ rest = [] := by simp
    rw [hpaths, hfind, IsReported, hlength, ← hold]
    cases e.mask with
    | movedFrom => simp
    | movedTo =>
      simp only [singleton_perm_map, Report.mk.injEq, true_and]
      constructor
      · rintro ⟨old, hname, hrest, rfl⟩
        exact .inr (.inr ⟨hrest, nofun, fun _ => hname⟩)
      · rintro (hnil | hfrom | ⟨hrest, -, hname⟩)
        · cases hnil
        · cases hfrom
        · exact ⟨w.oldFilename, hname trivial, hrest, rfl⟩
    | attrib => simp [FileWatcher.eventType]
    | _ => simp [FileWatcher.eventType]

/-- The only watcher of a descriptor goes by its path. -/
theorem eraseP_eq_filter {α κ : Type*} [DecidableEq κ] {key : α → κ} {fd : α → Nat} {l : List α}
    {w : α} {wd : Nat} (hnodup : (l.map key).Nodup)
    (hfilter : l.filter (fun a => fd a = wd) = [w]) :
    l.eraseP (fun a => key a = key w) = l.filter fun a => fd a ≠ wd := by
  have hw : w ∈ l ∧ fd w = wd := by
    have hmem : w ∈ l.filter fun a => fd a = wd := by simp [hfilter]
    simpa using hmem
  obtain ⟨before, after, rfl⟩ := List.append_of_mem hw.1
  rw [List.filter_append, List.filter_cons_of_pos (by simpa using hw.2),
    List.append_eq_singleton_iff] at hfilter
  have hothers : ∀ a ∈ before ++ after, decide (fd a ≠ wd) = true := by
    rcases hfilter with ⟨hbefore, hafter⟩ | ⟨-, hafter⟩
    · rw [List.cons_eq_cons] at hafter
      simp only [List.filter_eq_nil_iff, decide_eq_true_eq] at hbefore hafter
      simpa [or_imp, forall_and] using ⟨hbefore, hafter.2⟩
    · cases hafter
  have hkey : ∀ a ∈ before, ¬ decide (key a = key w) = true := by
    intro a ha
    rw [List.map_append, List.nodup_append] at hnodup
    simpa using hnodup.2.2 _ (List.mem_map_of_mem ha) (key w) (by simp)
  rw [List.eraseP_append_right _ hkey, List.eraseP_cons_of_pos (by simp), List.filter_append,
    List.filter_cons_of_neg (by simpa using hw.2), ← List.filter_append,
    List.filter_eq_self.mpr hothers]

omit [DecidableEq π] in
/-- Another watcher than the first of a descriptor is found by another descriptor. -/
theorem path_ne_of_findWatcher {w w' : Watcher π} {wd wd' : Nat}
    (hnodup : (g.watchers.map fun w => w.path).Nodup) (hw : g.findWatcher wd = some w)
    (hw' : g.findWatcher wd' = some w') (hne : wd' ≠ wd) : w'.path ≠ w.path := by
  intro hpath
  have heq : w' = w := List.inj_on_of_nodup_map hnodup (List.mem_of_find?_eq_some hw')
    (List.mem_of_find?_eq_some hw) hpath
  have hfd : w.watchFd = wd := by simpa using List.find?_some hw
  have hfd' : w'.watchFd = wd' := by simpa using List.find?_some hw'
  exact hne (by rw [← hfd', heq, hfd])

/-- The found watcher keeps a name, and no other one changes. -/
theorem findWatcher_setOldFilename {w : Watcher π} {wd : Nat}
    (hnodup : (g.watchers.map fun w => w.path).Nodup) (hw : g.findWatcher wd = some w)
    (name : List UInt8) (wd' : Nat) : (g.setOldFilename w.path name).findWatcher wd' =
      if wd' = wd then some { w with oldFilename := name } else g.findWatcher wd' := by
  have hmap : (g.setOldFilename w.path name).findWatcher wd' = (g.findWatcher wd').map
      fun w' => if w'.path = w.path then { w' with oldFilename := name } else w' := by
    rw [findWatcher, setOldFilename, List.find?_map, findWatcher]
    congr 2
    funext w'
    simp only [Function.comp_apply]
    split <;> rfl
  rw [hmap]
  split
  · next hwd => rw [hwd, hw, Option.map_some, if_pos rfl]
  · next hwd =>
    cases hw' : g.findWatcher wd' with
    | none => rfl
    | some w' => rw [Option.map_some, if_neg (path_ne_of_findWatcher hnodup hw hw' hwd)]

theorem ends_concat_of_not (hnot : FileWatcher.eventType e.mask ≠ some .terminated) (wd : Nat) :
    ends (h ++ [e]) wd = ends h wd := by
  rw [ends_concat, decide_eq_false (fun hends => hnot hends.2), Bool.or_false]

omit [DecidableEq π] in
/-- An event of a descriptor that no watcher has changes nothing. -/
theorem Synced.concat_of_none (hsynced : Synced f h g) (hfind : g.findWatcher e.wd = none) :
    Synced f (h ++ [e]) g := by
  have hnone : ∀ w ∈ g.toFileWatcher.watchers, w.watchFd ≠ e.wd := by
    have htfw := findWatcher_toFileWatcher g e.wd
    rw [hfind, Option.map_none] at htfw
    simpa using List.find?_eq_none.mp htfw
  refine ⟨?_, fun wd w hw => ?_⟩
  · rw [hsynced.watchers]
    refine List.filter_congr fun w hw => ?_
    rw [ends_concat]
    cases hends : ends h w.watchFd with
    | true => rfl
    | false =>
      have hmem : w ∈ g.toFileWatcher.watchers := by
        rw [hsynced.watchers]
        exact List.mem_filter.mpr ⟨hw, by simp [hends]⟩
      have hne : e.wd ≠ w.watchFd := (hnone w hmem).symm
      simp [hne]
  · have hne : e.wd ≠ wd := by
      rintro rfl
      rw [hfind] at hw
      cases hw
    rw [hsynced.oldFilename wd w hw, pendingName_concat_of_not wd fun h' => hne h'.1]

/-- The name that waits goes with the half of a rename. -/
theorem Synced.setOldFilename (hsynced : Synced f h g)
    (hnodup : (g.watchers.map fun w => w.path).Nodup) {w : Watcher π} {name : List UInt8}
    (hfind : g.findWatcher e.wd = some w) (hname : pendingName (h ++ [e]) e.wd = name)
    (hmask : FileWatcher.eventType e.mask ≠ some .terminated) :
    Synced f (h ++ [e]) (g.setOldFilename w.path name) := by
  refine ⟨?_, fun wd w' hw' => ?_⟩
  · rw [toFileWatcher_setOldFilename, hsynced.watchers]
    exact List.filter_congr fun w _ => by rw [ends_concat_of_not hmask]
  · rw [findWatcher_setOldFilename hnodup hfind] at hw'
    split at hw'
    · next hwd =>
      cases hw'
      rw [hwd, hname]
    · next hwd =>
      rw [hsynced.oldFilename wd w' hw', pendingName_concat_of_not wd fun h' => hwd h'.1.symm]

omit [DecidableEq π] in
theorem Synced.concat_of_not (hsynced : Synced f h g)
    (hmask : FileWatcher.eventType e.mask ≠ some .terminated)
    (hfrom : e.mask ≠ .movedFrom) (hto : e.mask ≠ .movedTo) : Synced f (h ++ [e]) g := by
  refine ⟨?_, fun wd w hw => ?_⟩
  · rw [hsynced.watchers]
    exact List.filter_congr fun w _ => by rw [ends_concat_of_not hmask]
  · rw [hsynced.oldFilename wd w hw, pendingName_concat_of_not wd]
    rintro ⟨-, h' | h'⟩
    · exact hfrom h'
    · exact hto h'

omit [DecidableEq π] in
theorem Synced.congr {g' : FileRenames π} (hsynced : Synced f h g)
    (hwatchers : g'.watchers = g.watchers) : Synced f h g' := by
  refine ⟨?_, fun wd w hw => ?_⟩
  · rw [← hsynced.watchers, toFileWatcher, toFileWatcher, hwatchers]
  · rw [findWatcher, hwatchers] at hw
    exact hsynced.oldFilename wd w hw

/-- The watcher of a descriptor that no other one shares goes with the watch. -/
theorem Synced.rmWatch (hsynced : Synced f h g) (hnodup : (g.watchers.map fun w => w.path).Nodup)
    {w : Watcher π} (hfilter : g.watchers.filter (fun w => w.watchFd = e.wd) = [w])
    (hmask : FileWatcher.eventType e.mask = some .terminated) :
    Synced f (h ++ [e]) (g.rmWatch w.path) := by
  have hwatchers : (g.rmWatch w.path).watchers = g.watchers.filter fun w => w.watchFd ≠ e.wd := by
    rw [watchers_rmWatch]
    exact eraseP_eq_filter hnodup hfilter
  refine ⟨?_, fun wd w' hw' => ?_⟩
  · have htfw : (g.rmWatch w.path).toFileWatcher.watchers =
        g.toFileWatcher.watchers.filter fun w => w.watchFd ≠ e.wd := by
      simp [toFileWatcher, hwatchers, List.filter_map, Function.comp_def]
    rw [htfw, hsynced.watchers, List.filter_filter]
    refine List.filter_congr fun w _ => ?_
    rw [ends_concat]
    simp [hmask, Bool.and_comm, eq_comm]
  · rw [findWatcher, hwatchers, List.find?_filter] at hw'
    have hne : wd ≠ e.wd := by
      have hfd := List.find?_some hw'
      rintro rfl
      simp at hfd
    have hfind : g.findWatcher wd = some w' := by
      rw [findWatcher, ← hw']
      congr 1
      funext w
      by_cases hw : w.watchFd = wd
      · simp [hw, hne]
      · simp [hw]
    rw [hsynced.oldFilename wd w' hfind, pendingName_concat_of_not wd fun h' => hne h'.1.symm]

theorem Synced.handleEvent (hwatching : Watching files f) (hsynced : Synced f h g)
    (hreportable : Reportable (f.registered files h e.wd) h e) :
    Synced f (h ++ [e]) (g.handleEvent e) := by
  have hnodup := hsynced.nodup_path hwatching.nodup
  have hpaths := registered_eq hwatching hsynced e.wd
  rw [FileRenames.handleEvent]
  cases hfind : g.findWatcher e.wd with
  | none => exact hsynced.concat_of_none hfind
  | some w =>
    have hkept : FileWatcher.eventType e.mask ≠ some .terminated → e.mask ≠ .movedFrom →
        e.mask ≠ .movedTo → Synced f (h ++ [e]) g := hsynced.concat_of_not
    have halone : e.mask ≠ .movedFrom → (g.watchers.filter fun w => w.watchFd = e.wd) = [w] := by
      intro hfrom
      rw [findWatcher_eq_head?] at hfind
      rcases hreportable with hnil | hmask | ⟨hlength, -⟩
      · rw [hpaths, List.map_eq_nil_iff] at hnil
        simp [hnil] at hfind
      · exact absurd hmask hfrom
      · rw [hpaths, List.length_map, List.length_eq_one_iff] at hlength
        obtain ⟨w', hw'⟩ := hlength
        rw [hw'] at hfind ⊢
        simpa using hfind
    cases hmask : e.mask with
    | movedFrom =>
      exact hsynced.setOldFilename hnodup hfind (pendingName_concat_movedFrom hmask)
        (by simp [hmask, FileWatcher.eventType])
    | movedTo =>
      exact (hsynced.setOldFilename hnodup hfind (pendingName_concat_movedTo hmask)
        (by simp [hmask, FileWatcher.eventType])).congr rfl
    | attrib => exact hkept (by simp [hmask, FileWatcher.eventType]) (by simp [hmask]) (by simp [hmask])
    | deleteSelf | moveSelf | unmount | qOverflow | ignored =>
      exact (hsynced.rmWatch hnodup (halone (by simp [hmask]))
        (by rw [hmask, FileWatcher.eventType])).congr rfl
    | _ =>
      exact (hkept (by simp [hmask, FileWatcher.eventType]) (by simp [hmask])
        (by simp [hmask])).congr rfl

omit [DecidableEq π] in
theorem Watching.synced (hwatching : Watching files f) : Synced f [] f := by
  refine ⟨?_, fun wd w hw => ?_⟩
  · simp [ends]
  · rw [hwatching.oldFilename w (List.mem_of_find?_eq_some hw)]
    rfl

theorem synced_handle (hwatching : Watching files f)
    (hreportable : ∀ h e, h ++ [e] <+: l → Reportable (f.registered files h e.wd) h e) :
    Synced f l (f.handle l) := by
  induction l using List.reverseRecOn with
  | nil => exact hwatching.synced
  | append_singleton l e ih =>
    have hsynced := ih fun h e' hle => hreportable h e' (hle.trans (List.prefix_append _ _))
    rw [handle_concat]
    exact hsynced.handleEvent hwatching (hreportable l e List.prefix_rfl)

/-- What holds of every event of a sequence, with the events before it. -/
theorem forall_concat_prefix_concat {α : Type*} {Q : List α → α → Prop} {l : List α} {b : α} :
    (∀ h a, h ++ [a] <+: l ++ [b] → Q h a) ↔ (∀ h a, h ++ [a] <+: l → Q h a) ∧ Q l b := by
  constructor
  · intro hQ
    exact ⟨fun h a hle => hQ h a (hle.trans (List.prefix_append _ _)),
      hQ l b List.prefix_rfl⟩
  · rintro ⟨hQ, hlast⟩ h a hle
    rcases List.prefix_concat_iff.mp hle with heq | hle
    · obtain ⟨rfl, hab⟩ := List.append_inj' heq rfl
      cases hab
      exact hlast
    · exact hQ h a hle

theorem reportsAll_iff_reportsOf : ReportsAll f files l ↔ ∀ h e, h ++ [e] <+: l →
    IsReported (f.registered files h e.wd) h e ((f.handle h).reportsOf e) := by
  simp only [ReportsAll, handle_concat, events_handleEvent, List.append_cancel_left_eq,
    exists_eq_left']

/-- Every event is reported as it should exactly when each can be. -/
theorem Watching.reportsAll_iff (hwatching : Watching files f) (l : List Event) :
    ReportsAll f files l ↔
      ∀ h e, h ++ [e] <+: l → Reportable (f.registered files h e.wd) h e := by
  rw [reportsAll_iff_reportsOf]
  induction l using List.reverseRecOn with
  | nil => simp
  | append_singleton l e ih =>
    rw [forall_concat_prefix_concat, forall_concat_prefix_concat, ih]
    refine and_congr_right fun hreportable => ?_
    exact isReported_reportsOf_iff hwatching (synced_handle hwatching hreportable) e

end Run

/-! ## Watched paths -/

section WatchAll

variable {f : FileRenames π} {files : Files π γ}

omit [DecidableEq π] in
theorem watching_init (files : Files π γ) : Watching files (init : FileRenames π) :=
  ⟨List.nodup_nil, nofun, nofun⟩

theorem Watching.addWatch (hwatching : Watching files f) (p : π) :
    Watching files (f.addWatch files p) := by
  rw [FileRenames.addWatch]
  split
  · exact hwatching
  · next hnew =>
    split
    · exact hwatching
    · split
      · exact hwatching
      · next i hi =>
        refine ⟨?_, fun w hw => ?_, fun w hw => ?_⟩
        · rw [List.map_append, List.map_singleton, ← List.concat_eq_append]
          refine List.Nodup.concat (fun hmem => hnew ?_) hwatching.nodup
          obtain ⟨w, hw, hpath⟩ := List.mem_map.mp hmem
          exact List.any_eq_true.mpr ⟨w, hw, decide_eq_true hpath⟩
        · rcases List.mem_append.mp hw with hw | hw
          · obtain ⟨j, hj, hwd⟩ := Option.bind_eq_some_iff.mp (hwatching.watchOf w hw)
            exact Option.bind_eq_some_iff.mpr
              ⟨j, hj, Instance.watchOf_addWatch_of_eq_some hwd i⟩
          · rw [List.mem_singleton.mp hw]
            exact Option.bind_eq_some_iff.mpr ⟨i, hi, Instance.watchOf_addWatch_self _ i⟩
        · rcases List.mem_append.mp hw with hw | hw
          · exact hwatching.oldFilename w hw
          · rw [List.mem_singleton.mp hw]

theorem numbered_addWatch (hnumbered : f.inotify.Numbered) (files : Files π γ) (p : π) :
    (f.addWatch files p).inotify.Numbered := by
  rw [addWatch]
  split
  · exact hnumbered
  · split
    · exact hnumbered
    · split
      · exact hnumbered
      · exact hnumbered.addWatch _

theorem watching_watchAll (files : Files π γ) (paths : List π) :
    Watching files (watchAll files paths) ∧ (watchAll files paths).inotify.Numbered := by
  rw [watchAll]
  induction paths using List.reverseRecOn with
  | nil => exact ⟨watching_init files, Instance.numbered_init⟩
  | append_singleton paths p ih =>
    rw [List.foldl_concat]
    exact ⟨ih.1.addWatch p, numbered_addWatch ih.2 files p⟩

end WatchAll

/-- The events of watched paths are all reported as they should exactly when one watcher
can tell about each of them. -/
theorem reportsAll_watchAll_iff (files : Files π γ) (paths : List π) (l : List Event) :
    ReportsAll (watchAll files paths) files l ↔ ∀ h e, h ++ [e] <+: l →
      Reportable ((watchAll files paths).registered files h e.wd) h e :=
  (watching_watchAll files paths).1.reportsAll_iff l

/-- A directory. -/
def oneDirectory : Files Unit Unit where
  inode _ := some 0
  links _ := 1
  content _ := ()
  next := 1
  fresh := by simp

/-- One file leaves the directory, and another one comes from elsewhere: it is taken for
the first one. -/
theorem not_reportsAll_movedOut : ¬ ReportsAll (watchAll oneDirectory [()]) oneDirectory
    [⟨⟨1, .movedFrom⟩, 1, [97]⟩, ⟨⟨1, .movedTo⟩, 2, [98]⟩] := by
  rw [(watching_watchAll oneDirectory [()]).1.reportsAll_iff]
  intro hreportable
  rcases hreportable [⟨⟨1, .movedFrom⟩, 1, [97]⟩] ⟨⟨1, .movedTo⟩, 2, [98]⟩ List.prefix_rfl with
    hnil | hfrom | ⟨-, -, hname⟩
  · exact absurd hnil (by decide)
  · cases hfrom
  · rcases hname rfl with ⟨e', he', hhalf, -⟩ | ⟨-, hpending⟩
    · rw [List.mem_singleton.mp he'] at hhalf
      exact absurd hhalf.2.2 (by decide)
    · exact absurd hpending (by decide)

end FileRenames

end Sihd.Sys
