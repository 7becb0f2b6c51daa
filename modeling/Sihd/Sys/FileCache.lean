import Mathlib.Data.Fintype.Basic
import Sihd.Lib.Transition
import Sihd.Sys.FileWatcher
import Sihd.Util.Cache

/-!
# The file cache

A world has the files, the watcher on them, the cache and the place of the call under way. The files
may change at any place of a call: only a read of a file and a call to the kernel are one step. A
get begins where it takes what is queued, and records whether what its path names has changed since.
-/

namespace Sihd.Sys

open Inotify (Files Change)
open Sihd.Util (Cache)

namespace FileCache

inductive Pc (π γ : Type*) where
  | idle
  /-- The value is read, or the add is lazy. -/
  | adding (p : π) (value : Option γ)
  /-- In `run`, with the inotify events that are left. -/
  | running (p : π) (batch : List Inotify.Event)
  /-- What has changed is invalidated. -/
  | looking (p : π)
  | got (p : π) (v : γ)
  deriving DecidableEq

/-- The path of the get. -/
def Pc.getting {π γ : Type*} : Pc π γ → Option π
  | .idle | .adding _ _ => none
  | .running p _ | .looking p | .got p _ => some p

inductive Move (π γ : Type*) where
  | change (ch : Change π γ)
  | add (p : π) (lazy : Bool)
  | remove (p : π)
  | clear
  | get (p : π)
  | next (now : Nat)

structure World (π γ : Type*) where
  files : Files π γ
  fileWatcher : FileWatcher π
  cache : Cache π γ
  pc : Pc π γ
  changed : Bool

/-- The events that invalidate an entry. -/
def invalidates : FileWatcherEventType → Bool
  | .created | .deleted | .modified | .renamed => true
  | .unknown | .opened | .accessed | .closed | .terminated => false

variable {π γ : Type*} [DecidableEq π]

/-- An entry that is missing throws, and leaves the other events. -/
def handle (cache : Cache π γ) : List (FileWatcherEvent π) → Cache π γ × Bool
  | [] => (cache, true)
  | e :: events =>
    if invalidates e.type then
      match cache.invalidate e.watchPath with
      | none => (cache, false)
      | some cache => handle cache events
    else handle cache events

namespace World

def init (files : Files π γ) : World π γ := ⟨files, .init, .empty, .idle, false⟩

/-- An eager add of a file that is not there throws. -/
def add (w : World π γ) (p : π) (lazy : Bool) : World π γ :=
  if lazy then { w with pc := .adding p none }
  else
    match w.files.read p with
    | none => w
    | some v => { w with pc := .adding p (some v) }

def added [Inhabited γ] (w : World π γ) (p : π) (value : Option γ) (now : Nat) : World π γ :=
  { w with
    cache := w.cache.set p value now (-1)
    fileWatcher := w.fileWatcher.addWatch w.files p
    pc := .idle }

def remove (w : World π γ) (p : π) : World π γ :=
  { w with cache := w.cache.erase p, fileWatcher := w.fileWatcher.rmWatch p }

def clear (w : World π γ) : World π γ :=
  { w with cache := .empty, fileWatcher := w.fileWatcher.terminate }

def get (w : World π γ) (p : π) : World π γ :=
  { w with
    fileWatcher := { w.fileWatcher with inotify := w.fileWatcher.inotify.read, events := [] }
    pc := .running p w.fileWatcher.inotify.queue
    changed := false }

def notifyObservers (w : World π γ) (p : π) : World π γ :=
  let handled := handle w.cache w.fileWatcher.events
  { w with cache := handled.1, pc := if handled.2 then .looking p else .idle }

/-- A missing key throws. A getter that throws gives no value. -/
def look (w : World π γ) (p : π) (now : Nat) : World π γ :=
  match w.cache.get p (w.files.read p) now (-1) with
  | .missingKey => { w with pc := .idle }
  | .thrown cache => { w with cache := cache, pc := .idle }
  | .value v cache => { w with cache := cache, pc := .got p v }

def next [Inhabited γ] (w : World π γ) (now : Nat) : Option (World π γ) :=
  match w.pc with
  | .idle => none
  | .adding p value => some (w.added p value now)
  | .running p (e :: batch) =>
    some { w with fileWatcher := w.fileWatcher.handleEvent e, pc := .running p batch }
  | .running p [] => some (w.notifyObservers p)
  | .looking p => some (w.look p now)
  | .got _ _ => some { w with pc := .idle }

variable [DecidableEq γ]

def change (w : World π γ) (ch : Change π γ) : World π γ :=
  { w with
    files := w.files.apply ch
    fileWatcher := { w.fileWatcher with inotify := w.fileWatcher.inotify.observe w.files ch }
    changed := w.changed ||
      w.pc.getting.any fun p => (w.files.apply ch).read p ≠ w.files.read p }

def isIdle (w : World π γ) : Bool :=
  match w.pc with
  | .idle => true
  | _ => false

def step [Inhabited γ] (w : World π γ) : Move π γ → Option (World π γ)
  | .change ch => some (w.change ch)
  | .add p lazy => if w.isIdle then some (w.add p lazy) else none
  | .remove p => if w.isIdle then some (w.remove p) else none
  | .clear => if w.isIdle then some w.clear else none
  | .get p => if w.isIdle then some (w.get p) else none
  | .next now => w.next now

/-- What a get gives is what the file has, if it has not changed since the get began. -/
def IsCurrent (w : World π γ) : Prop :=
  ∀ p v, w.pc = .got p v → w.changed = false → ∀ c, w.files.read p = some c → v = c

/-! ### What is in time -/

/-- The watcher once it has the events that were taken. Events of another get count no more. -/
def watcherNow (w : World π γ) : FileWatcher π :=
  match w.pc with
  | .running _ batch => w.fileWatcher.handle batch
  | _ => { w.fileWatcher with events := [] }

/-- An event invalidates the entry of the path. -/
def Marked (events : List (FileWatcherEvent π)) (p : π) : Prop :=
  ∃ x ∈ events, invalidates x.type = true ∧ x.watchPath = p

/-- The watcher once it has what is queued as well. -/
def watcherThen (w : World π γ) : FileWatcher π :=
  w.watcherNow.handle w.fileWatcher.inotify.queue

/-- What was taken or queued invalidates the entry of the path. -/
def Pending (w : World π γ) (p : π) : Prop := Marked w.watcherThen.events p

/-- The value of the path that is cached, or that an add has read to cache it. -/
def held (w : World π γ) (p : π) : Option γ :=
  match w.pc with
  | .adding q (some v) => if p = q then some v else w.cache.kept p
  | _ => w.cache.kept p

/-- The path whose entry is invalidated by the event of a write, the first one that the watcher
finds for the watch on the inode. -/
def noticed (w : World π γ) : Change π γ → Option π
  | .write q _ =>
    (w.files.inode q).bind fun i =>
      (w.fileWatcher.inotify.watchOf i).bind fun wd =>
        (w.watcherThen.findWatcher wd).map FileWatcher.Watcher.path
  | _ => none

/-- A change of the files from the value that is held for a path is one that is noticed, or the
entry of the path is to be invalidated already. A removal of a path takes no event from another one
that shares the watch. -/
def InTime (w : World π γ) : Move π γ → Prop
  | .change ch => ∀ p v c, w.held p = some v → (w.files.apply ch).read p = some c → c ≠ v →
      w.Pending p ∨ w.noticed ch = some p
  | .remove q => ∀ p v c, p ≠ q → w.held p = some v → w.files.read p = some c → c ≠ v →
      w.Pending p → { w with fileWatcher := w.fileWatcher.rmWatch q }.Pending p
  | _ => True

instance (events : List (FileWatcherEvent π)) (p : π) : Decidable (Marked events p) :=
  inferInstanceAs (Decidable (∃ x ∈ events, _))

instance (w : World π γ) (p : π) : Decidable (w.Pending p) :=
  inferInstanceAs (Decidable (Marked _ _))

instance [Fintype π] [Fintype γ] [DecidableEq γ] (w : World π γ) : DecidablePred w.InTime
  | .change ch => inferInstanceAs (Decidable (∀ p v c, w.held p = some v →
      (w.files.apply ch).read p = some c → c ≠ v → w.Pending p ∨ w.noticed ch = some p))
  | .remove q => inferInstanceAs (Decidable (∀ p v c, p ≠ q → w.held p = some v →
      w.files.read p = some c → c ≠ v → w.Pending p →
        { w with fileWatcher := w.fileWatcher.rmWatch q }.Pending p))
  | .add _ _ | .clear | .get _ | .next _ => inferInstanceAs (Decidable True)

end World

end FileCache

end Sihd.Sys
