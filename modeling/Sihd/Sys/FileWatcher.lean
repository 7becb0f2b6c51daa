import Mathlib.Data.List.Nodup
import Sihd.Lib.Inotify

/-!
# The file watcher

A watcher has a path and the descriptor of the watch on the inode that the path had. Two watchers
may share a descriptor: an event is one of the first watcher that has it.
-/

namespace Sihd.Sys

open Inotify (Instance Mask Files)

inductive FileWatcherEventType where
  | unknown
  | created
  | deleted
  | modified
  | renamed
  | terminated
  | opened
  | accessed
  | closed
  deriving DecidableEq

structure FileWatcherEvent (π : Type*) where
  type : FileWatcherEventType
  watchPath : π

namespace FileWatcher

structure Watcher (π : Type*) where
  path : π
  watchFd : Nat

end FileWatcher

structure FileWatcher (π : Type*) where
  inotify : Instance
  watchers : List (FileWatcher.Watcher π)
  events : List (FileWatcherEvent π)

namespace FileWatcher

variable {π γ : Type*} [DecidableEq π]

def init : FileWatcher π := ⟨.init, [], []⟩

def isWatching (f : FileWatcher π) (p : π) : Bool := f.watchers.any fun w => w.path = p

/-- The watcher is closed, and with it the watch that another one may have as well. -/
def rmWatch (f : FileWatcher π) (p : π) : FileWatcher π :=
  match f.watchers.find? fun w => w.path = p with
  | none => f
  | some w =>
    { f with
      inotify := f.inotify.rmWatch w.watchFd
      watchers := f.watchers.eraseP fun w => w.path = p }

/-- It fails where there is no file, and on an instance that was closed. -/
def addWatch (f : FileWatcher π) (files : Files π γ) (p : π) : FileWatcher π :=
  if f.isWatching p then f
  else if !f.inotify.isOpen then f
  else
    match files.inode p with
    | none => f
    | some i =>
      { f with
        inotify := (f.inotify.addWatch i).2
        watchers := f.watchers ++ [⟨p, (f.inotify.addWatch i).1⟩] }

/-- `init` is not called again. -/
def terminate (f : FileWatcher π) : FileWatcher π :=
  { f with inotify := f.inotify.close, watchers := [] }

/-- Other masks make no event. -/
def eventType : Mask → Option FileWatcherEventType
  | .create => some .created
  | .delete => some .deleted
  | .modify => some .modified
  | .opened => some .opened
  | .access => some .accessed
  | .close => some .closed
  | .movedTo => some .renamed
  | .deleteSelf | .moveSelf | .unmount | .qOverflow | .ignored => some .terminated
  | .movedFrom | .attrib => none

def findWatcher (f : FileWatcher π) (wd : Nat) : Option (Watcher π) :=
  f.watchers.find? fun w => w.watchFd = wd

def emplaceEvent (f : FileWatcher π) (e : FileWatcherEvent π) : FileWatcher π :=
  { f with events := f.events ++ [e] }

/-- One turn of the loop of `handle`. -/
def handleEvent (f : FileWatcher π) (e : Inotify.Event) : FileWatcher π :=
  match f.findWatcher e.wd, eventType e.mask with
  | some watcher, some type =>
    (if type = .terminated then f.rmWatch watcher.path else f).emplaceEvent ⟨type, watcher.path⟩
  | _, _ => f

def handle (f : FileWatcher π) (l : List Inotify.Event) : FileWatcher π := l.foldl handleEvent f

theorem handle_cons (f : FileWatcher π) (e : Inotify.Event) (l : List Inotify.Event) :
    f.handle (e :: l) = (f.handleEvent e).handle l := rfl

theorem handle_append (f : FileWatcher π) (l l' : List Inotify.Event) :
    f.handle (l ++ l') = (f.handle l).handle l' :=
  List.foldl_append

/-! ### Watchers and events -/

@[simp] theorem watchers_rmWatch (f : FileWatcher π) (p : π) :
    (f.rmWatch p).watchers = f.watchers.eraseP fun w => w.path = p := by
  rw [rmWatch]
  split
  · rename_i h
    exact (List.eraseP_of_forall_not (List.find?_eq_none.mp h)).symm
  · rfl

@[simp] theorem events_rmWatch (f : FileWatcher π) (p : π) : (f.rmWatch p).events = f.events := by
  rw [rmWatch]
  split <;> rfl

@[simp] theorem events_addWatch (f : FileWatcher π) (files : Files π γ) (p : π) :
    (f.addWatch files p).events = f.events := by
  rw [addWatch]
  split
  · rfl
  · split
    · rfl
    · split <;> rfl

@[simp] theorem queue_addWatch (f : FileWatcher π) (files : Files π γ) (p : π) :
    (f.addWatch files p).inotify.queue = f.inotify.queue := by
  rw [addWatch]
  split
  · rfl
  · split
    · rfl
    · split
      · rfl
      · exact Instance.queue_addWatch _ _

theorem prefix_rmWatch (f : FileWatcher π) (p : π) :
    f.inotify.queue <+: (f.rmWatch p).inotify.queue := by
  rw [rmWatch]
  split
  · exact List.prefix_rfl
  · exact Instance.prefix_rmWatch _ _

theorem prefix_handleEvent (f : FileWatcher π) (e : Inotify.Event) :
    f.inotify.queue <+: (f.handleEvent e).inotify.queue := by
  rw [handleEvent]
  split
  · split
    · exact prefix_rmWatch f _
    · exact List.prefix_rfl
  · exact List.prefix_rfl

theorem handleEvent_of_findWatcher_eq_none {f : FileWatcher π} {e : Inotify.Event}
    (h : f.findWatcher e.wd = none) : f.handleEvent e = f := by
  rw [handleEvent, h]

theorem handleEvent_of_eventType_eq_none {f : FileWatcher π} {e : Inotify.Event}
    (h : eventType e.mask = none) : f.handleEvent e = f := by
  rw [handleEvent, h]
  split
  · rename_i heq
    cases heq
  · rfl

theorem handleEvent_of_eq_some {f : FileWatcher π} {e : Inotify.Event} {w : Watcher π}
    {type : FileWatcherEventType} (hw : f.findWatcher e.wd = some w)
    (htype : eventType e.mask = some type) :
    (f.handleEvent e).watchers =
        (if type = .terminated then f.watchers.eraseP (fun w' => w'.path = w.path)
          else f.watchers) ∧
      (f.handleEvent e).events = f.events ++ [⟨type, w.path⟩] := by
  rw [handleEvent, hw, htype]
  dsimp only [emplaceEvent]
  split
  · exact ⟨watchers_rmWatch f _, congrArg (· ++ _) (events_rmWatch f _)⟩
  · exact ⟨rfl, rfl⟩

/-- A watcher goes or all stay, an event of a watcher comes or none. -/
theorem handleEvent_cases (f : FileWatcher π) (e : Inotify.Event) :
    (f.handleEvent e).watchers.Sublist f.watchers ∧
      ((f.handleEvent e).events = f.events ∨
        ∃ w ∈ f.watchers, ∃ type, (f.handleEvent e).events = f.events ++ [⟨type, w.path⟩]) := by
  cases hw : f.findWatcher e.wd with
  | none =>
    rw [handleEvent_of_findWatcher_eq_none hw]
    exact ⟨List.Sublist.refl _, .inl rfl⟩
  | some w =>
    cases htype : eventType e.mask with
    | none =>
      rw [handleEvent_of_eventType_eq_none htype]
      exact ⟨List.Sublist.refl _, .inl rfl⟩
    | some type =>
      obtain ⟨hwatchers, hevents⟩ := handleEvent_of_eq_some hw htype
      refine ⟨?_, .inr ⟨w, List.mem_of_find?_eq_some hw, type, hevents⟩⟩
      rw [hwatchers]
      split
      · exact List.eraseP_sublist
      · exact List.Sublist.refl _

theorem mem_events_handleEvent {f : FileWatcher π} {x : FileWatcherEvent π} (h : x ∈ f.events)
    (e : Inotify.Event) : x ∈ (f.handleEvent e).events := by
  obtain heq | ⟨w, -, type, heq⟩ := (f.handleEvent_cases e).2
  · rwa [heq]
  · rw [heq]
    exact List.mem_append_left _ h

theorem mem_events_handle {x : FileWatcherEvent π} (l : List Inotify.Event) :
    ∀ {f : FileWatcher π}, x ∈ f.events → x ∈ (f.handle l).events := by
  induction l with
  | nil => exact fun h => h
  | cons e l ih => exact fun h => ih (mem_events_handleEvent h e)

/-! ### More watchers -/

/-- `g` has the watchers of `f` first, and the events of `f` among others. -/
structure ExtendedBy (f g : FileWatcher π) : Prop where
  watchers : ∃ more, g.watchers = f.watchers ++ more
  nodup : (g.watchers.map Watcher.path).Nodup
  events : ∀ x ∈ f.events, x ∈ g.events

namespace ExtendedBy

variable {f g : FileWatcher π}

omit [DecidableEq π] in
theorem of_eq (hwatchers : g.watchers = f.watchers) (hnodup : (f.watchers.map Watcher.path).Nodup)
    (hevents : ∀ x ∈ f.events, x ∈ g.events) : f.ExtendedBy g :=
  ⟨⟨[], by rw [hwatchers, List.append_nil]⟩, hwatchers ▸ hnodup, hevents⟩

/-- What finds no watcher of `f` may find one of the others, and that goes alone. -/
theorem handleEvent_of_findWatcher_eq_none (h : f.ExtendedBy g) {e : Inotify.Event}
    (hf : f.findWatcher e.wd = none) : f.ExtendedBy (g.handleEvent e) := by
  obtain ⟨⟨more, hmore⟩, hnodup, hevents⟩ := h
  refine ⟨?_, hnodup.sublist ((g.handleEvent_cases e).1.map _), fun x hx =>
    mem_events_handleEvent (hevents x hx) e⟩
  cases hg : g.findWatcher e.wd with
  | none => exact ⟨more, by rw [FileWatcher.handleEvent_of_findWatcher_eq_none hg, hmore]⟩
  | some w =>
    cases htype : eventType e.mask with
    | none => exact ⟨more, by rw [handleEvent_of_eventType_eq_none htype, hmore]⟩
    | some type =>
      rw [(handleEvent_of_eq_some hg htype).1]
      split
      · have hw : w ∈ more := by
          rw [findWatcher, hmore, List.find?_append, ← findWatcher, hf, Option.none_or] at hg
          exact List.mem_of_find?_eq_some hg
        rw [hmore, List.map_append, List.nodup_append'] at hnodup
        rw [hmore, List.eraseP_append_right]
        · exact ⟨_, rfl⟩
        · intro w' hw' hpath
          refine hnodup.2.2 (List.mem_map_of_mem hw') ?_
          rw [of_decide_eq_true hpath]
          exact List.mem_map_of_mem hw
      · exact ⟨more, hmore⟩

theorem handleEvent (h : f.ExtendedBy g) (e : Inotify.Event) :
    (f.handleEvent e).ExtendedBy (g.handleEvent e) := by
  cases hf : f.findWatcher e.wd with
  | none =>
    rw [FileWatcher.handleEvent_of_findWatcher_eq_none hf]
    exact h.handleEvent_of_findWatcher_eq_none hf
  | some w =>
    obtain ⟨⟨more, hmore⟩, hnodup, hevents⟩ := h
    cases htype : eventType e.mask with
    | none =>
      rw [handleEvent_of_eventType_eq_none htype, handleEvent_of_eventType_eq_none htype]
      exact ⟨⟨more, hmore⟩, hnodup, hevents⟩
    | some type =>
      have hg : g.findWatcher e.wd = some w := by
        rw [findWatcher, hmore, List.find?_append, ← findWatcher, hf, Option.some_or]
      obtain ⟨hfw, hfe⟩ := handleEvent_of_eq_some hf htype
      obtain ⟨hgw, hge⟩ := handleEvent_of_eq_some hg htype
      refine ⟨?_, hnodup.sublist ((g.handleEvent_cases e).1.map _), ?_⟩
      · rw [hfw, hgw, hmore]
        split
        · have hw : w ∈ f.watchers := List.mem_of_find?_eq_some hf
          have hpath : decide (w.path = w.path) = true := decide_eq_true rfl
          exact ⟨more, List.eraseP_append_left (p := fun w' => w'.path = w.path) hpath more hw⟩
        · exact ⟨more, rfl⟩
      · intro x hx
        rw [hfe, List.mem_append] at hx
        rw [hge, List.mem_append]
        exact hx.imp_left (hevents x)

theorem handle (l : List Inotify.Event) :
    ∀ {f g : FileWatcher π}, f.ExtendedBy g → (f.handle l).ExtendedBy (g.handle l) := by
  induction l with
  | nil => exact fun h => h
  | cons e l ih => exact fun h => ih (h.handleEvent e)

/-- More events may follow as well. -/
theorem events_handle (h : f.ExtendedBy g) {l l' : List Inotify.Event} (hl : l <+: l')
    {x : FileWatcherEvent π} (hx : x ∈ (f.handle l).events) : x ∈ (g.handle l').events := by
  obtain ⟨rest, rfl⟩ := hl
  rw [handle_append]
  exact mem_events_handle rest ((h.handle l).events x hx)

end ExtendedBy

/-- A new watcher stands behind the others. -/
theorem extendedBy_addWatch {f : FileWatcher π} (h : (f.watchers.map Watcher.path).Nodup)
    (files : Files π γ) (p : π) : f.ExtendedBy (f.addWatch files p) := by
  rw [addWatch]
  split
  · exact .of_eq rfl h fun x hx => hx
  · rename_i hwatching
    split
    · exact .of_eq rfl h fun x hx => hx
    · split
      · exact .of_eq rfl h fun x hx => hx
      · refine ⟨⟨_, rfl⟩, ?_, fun x hx => hx⟩
        rw [List.map_append, List.nodup_append']
        refine ⟨h, List.nodup_singleton _, ?_⟩
        intro q hq hqp
        rw [List.map_singleton, List.mem_singleton] at hqp
        obtain ⟨w, hw, rfl⟩ := List.mem_map.mp hq
        exact hwatching (List.any_eq_true.mpr ⟨w, hw, decide_eq_true hqp⟩)

theorem mem_watchers_addWatch {f : FileWatcher π} {files : Files π γ} {p : π} {w : Watcher π}
    (h : w ∈ (f.addWatch files p).watchers) : w ∈ f.watchers ∨ w.path = p := by
  rw [addWatch] at h
  split at h
  · exact .inl h
  · split at h
    · exact .inl h
    · split at h
      · exact .inl h
      · rw [List.mem_append, List.mem_singleton] at h
        exact h.imp_right (congrArg Watcher.path)

end FileWatcher

end Sihd.Sys
