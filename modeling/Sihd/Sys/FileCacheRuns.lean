import Mathlib.Data.Fin.VecNotation
import Sihd.Sys.FileCache

/-!
# Runs of the file cache

What is held for a path is what its file has, or is to be invalidated. A change of a file keeps
this where it is in time, and calls do: no watch is needed for that, only the events that are
waiting. So a get gives what the file has.
-/

namespace Sihd.Sys

open Inotify (Files Change)
open Sihd.Util (Cache)

namespace FileWatcher

variable {π : Type*} [DecidableEq π] {f g : FileWatcher π}

omit [DecidableEq π] in
theorem ExtendedBy.cleared (h : f.ExtendedBy g) :
    { f with events := [] }.ExtendedBy { g with events := [] } :=
  ⟨h.watchers, h.nodup, fun _ hx => hx⟩

omit [DecidableEq π] in
theorem ExtendedBy.findWatcher (h : f.ExtendedBy g) {wd : Nat} {w : Watcher π}
    (hw : f.findWatcher wd = some w) : g.findWatcher wd = some w := by
  obtain ⟨more, hmore⟩ := h.watchers
  rw [FileWatcher.findWatcher, hmore, List.find?_append, ← FileWatcher.findWatcher, hw,
    Option.some_or]

/-- An event was there before or comes from what is handled. -/
theorem mem_events_cleared (l : List Inotify.Event) {x : FileWatcherEvent π} :
    ∀ {f : FileWatcher π}, x ∈ (f.handle l).events →
      x ∈ f.events ∨ x ∈ ({ f with events := [] }.handle l).events := by
  suffices h : ∀ (old : List (FileWatcherEvent π)) (f g : FileWatcher π),
      f.watchers = g.watchers → f.events = old ++ g.events →
        (f.handle l).events = old ++ (g.handle l).events by
    intro f hx
    rw [h f.events f { f with events := [] } rfl (List.append_nil _).symm] at hx
    exact List.mem_append.mp hx
  intro old
  induction l with
  | nil => exact fun f g _ h => h
  | cons e l ih =>
    intro f g hwatchers hevents
    rw [handle_cons, handle_cons]
    have hfind : f.findWatcher e.wd = g.findWatcher e.wd := by
      rw [findWatcher, findWatcher, hwatchers]
    cases hg : g.findWatcher e.wd with
    | none =>
      rw [handleEvent_of_findWatcher_eq_none (hfind.trans hg),
        handleEvent_of_findWatcher_eq_none hg]
      exact ih f g hwatchers hevents
    | some w =>
      cases htype : eventType e.mask with
      | none =>
        rw [handleEvent_of_eventType_eq_none htype, handleEvent_of_eventType_eq_none htype]
        exact ih f g hwatchers hevents
      | some type =>
        obtain ⟨hfw, hfe⟩ := handleEvent_of_eq_some (hfind.trans hg) htype
        obtain ⟨hgw, hge⟩ := handleEvent_of_eq_some hg htype
        refine ih _ _ ?_ ?_
        · rw [hfw, hgw, hwatchers]
        · rw [hfe, hge, hevents, List.append_assoc]

/-- One watcher at most has the path. -/
theorem path_ne_of_mem_eraseP {l : List (Watcher π)} (h : (l.map Watcher.path).Nodup) {p : π}
    {w : Watcher π} (hw : w ∈ l.eraseP fun w => w.path = p) : w.path ≠ p := by
  induction l with
  | nil => cases hw
  | cons x l ih =>
    rw [List.map_cons, List.nodup_cons] at h
    by_cases hx : x.path = p
    · simp only [List.eraseP_cons, hx, decide_true, cond_true] at hw
      intro hp
      exact h.1 (List.mem_map.mpr ⟨w, hw, hp.trans hx.symm⟩)
    · simp only [List.eraseP_cons, hx, decide_false, cond_false, List.mem_cons] at hw
      obtain rfl | hw := hw
      · exact hx
      · exact ih h.2 hw

end FileWatcher

namespace FileCache

variable {π γ : Type*}

namespace World

theorem isIdle_iff {w : World π γ} : w.isIdle = true ↔ w.pc = .idle := by
  rw [isIdle]
  split
  · rename_i h
    exact iff_of_true rfl h
  · rename_i h
    exact iff_of_false Bool.false_ne_true h

theorem Marked.mono {events events' : List (FileWatcherEvent π)} {p : π} (h : Marked events p)
    (hsub : ∀ x ∈ events, x ∈ events') : Marked events' p := by
  obtain ⟨x, hx, hx'⟩ := h
  exact ⟨x, hsub x hx, hx'⟩

theorem not_marked_nil (p : π) : ¬ Marked [] p := by
  rintro ⟨x, hx, -⟩
  cases hx

end World

variable [DecidableEq π]

theorem handle_cons_of_pos {cache : Cache π γ} {e : FileWatcherEvent π}
    {events : List (FileWatcherEvent π)} {cache' : Cache π γ} (htype : invalidates e.type = true)
    (h : cache.invalidate e.watchPath = some cache') :
    handle cache (e :: events) = handle cache' events := by
  rw [handle, if_pos htype, h]

theorem handle_cons_of_neg {cache : Cache π γ} {e : FileWatcherEvent π}
    {events : List (FileWatcherEvent π)} (htype : ¬ invalidates e.type = true) :
    handle cache (e :: events) = handle cache events := by
  rw [handle, if_neg htype]

/-- Where the entries are there, none throws. The entries of the events are kept no more, the
others are. -/
theorem handle_spec {events : List (FileWatcherEvent π)} :
    ∀ {cache : Cache π γ}, (∀ e ∈ events, cache.contains e.watchPath = true) →
      (handle cache events).2 = true ∧
        (∀ p v, (handle cache events).1.kept p = some v →
          cache.kept p = some v ∧ ¬ World.Marked events p) ∧
        ∀ p, cache.contains p = true → (handle cache events).1.contains p = true := by
  induction events with
  | nil =>
    intro cache _
    exact ⟨rfl, fun p v h => ⟨h, fun ⟨x, hx, _⟩ => by cases hx⟩, fun p h => h⟩
  | cons e events ih =>
    intro cache h
    rw [List.forall_mem_cons] at h
    by_cases htype : invalidates e.type = true
    · obtain ⟨cache', hcache⟩ := Cache.invalidate_isSome h.1
      obtain ⟨hself, hother, hcontains⟩ := Cache.invalidate_eq_some hcache
      rw [handle_cons_of_pos htype hcache]
      obtain ⟨hret, hkept, hin⟩ := ih fun x hx => hcontains _ (h.2 x hx)
      refine ⟨hret, fun p v hp => ?_, fun p hp => hin p (hcontains p hp)⟩
      obtain ⟨hv, hmarked⟩ := hkept p v hp
      have hne : p ≠ e.watchPath := by
        rintro rfl
        rw [hself] at hv
        cases hv
      refine ⟨hother p hne ▸ hv, fun ⟨x, hx, hinv, hpath⟩ => ?_⟩
      obtain rfl | hx := List.mem_cons.mp hx
      · exact hne hpath.symm
      · exact hmarked ⟨x, hx, hinv, hpath⟩
    · rw [handle_cons_of_neg htype]
      obtain ⟨hret, hkept, hin⟩ := ih h.2
      refine ⟨hret, fun p v hp => ⟨(hkept p v hp).1, fun ⟨x, hx, hinv, hpath⟩ => ?_⟩, hin⟩
      obtain rfl | hx := List.mem_cons.mp hx
      · exact htype hinv
      · exact (hkept p v hp).2 ⟨x, hx, hinv, hpath⟩

namespace World

/-! ### The invariant -/

/-- The entries of the watchers are there. What is held for a path that the file has no more is to
be invalidated. In a get of a path that has not changed since it began, this comes from what the get
has taken. -/
structure Inv (w : World π γ) : Prop where
  nodup : (w.fileWatcher.watchers.map FileWatcher.Watcher.path).Nodup
  watched : ∀ x ∈ w.fileWatcher.watchers, w.cache.contains x.path = true
  known : ∀ p batch, w.pc = .running p batch →
    ∀ x ∈ w.fileWatcher.events, w.cache.contains x.watchPath = true
  coherent : ∀ p v c, w.held p = some v → w.files.read p = some c → c ≠ v → w.Pending p
  taken : ∀ p, w.pc.getting = some p → w.changed = false → ∀ v c, w.cache.kept p = some v →
    w.files.read p = some c → c ≠ v → Marked w.watcherNow.events p
  got : ∀ p v, w.pc = .got p v → w.cache.kept p = some v

theorem inv_init (files : Files π γ) : (init files).Inv where
  nodup := List.nodup_nil
  watched _ hx := nomatch hx
  known _ _ hpc := nomatch hpc
  coherent _ _ _ hv := nomatch hv
  taken _ hget := nomatch hget
  got _ _ hpc := nomatch hpc

variable {w : World π γ}

theorem Inv.isCurrent (h : w.Inv) : w.IsCurrent := by
  intro p v hpc hchanged c hc
  by_contra hne
  have hmarked := h.taken p (by rw [hpc]; rfl) hchanged v c (h.got p v hpc) hc (Ne.symm hne)
  rw [watcherNow, hpc] at hmarked
  exact not_marked_nil p hmarked

theorem watcherNow_of_running {p : π} {batch : List Inotify.Event} (h : w.pc = .running p batch) :
    w.watcherNow = w.fileWatcher.handle batch := by
  rw [watcherNow, h]

/-- Where no get takes events, its events are none. -/
theorem watcherNow_of_forall_ne (h : ∀ p batch, w.pc ≠ .running p batch) :
    w.watcherNow = { w.fileWatcher with events := [] } := by
  rw [watcherNow]
  split
  · rename_i p batch hpc
    exact absurd hpc (h p batch)
  · rfl

theorem held_eq_kept (h : ∀ p v, w.pc ≠ .adding p (some v)) (p : π) :
    w.held p = w.cache.kept p := by
  rw [held]
  split
  · rename_i q v hpc
    exact absurd hpc (h q v)
  · rfl

/-- What was to be invalidated is, when no watcher before the others goes. -/
theorem Pending.mono {w w' : World π γ} {p : π} (h : w.Pending p)
    (hnow : w.watcherNow.ExtendedBy w'.watcherNow)
    (hqueue : w.fileWatcher.inotify.queue <+: w'.fileWatcher.inotify.queue) : w'.Pending p :=
  Marked.mono h fun _ hx => hnow.events_handle hqueue hx

/-! ### Changes of the files -/

section Change

variable [DecidableEq γ]

theorem Inv.extendedBy_change (h : w.Inv) (ch : Change π γ) :
    w.watcherNow.ExtendedBy (w.change ch).watcherNow := by
  have hfw : w.fileWatcher.ExtendedBy (w.change ch).fileWatcher := .of_eq rfl h.nodup fun _ hx => hx
  by_cases hrunning : ∃ p batch, w.pc = .running p batch
  · obtain ⟨p, batch, hpc⟩ := hrunning
    rw [watcherNow_of_running hpc, watcherNow_of_running (w := w.change ch) hpc]
    exact hfw.handle batch
  · simp only [not_exists] at hrunning
    rw [watcherNow_of_forall_ne hrunning, watcherNow_of_forall_ne (w := w.change ch) hrunning]
    exact hfw.cleared

/-- The event of a write is queued behind the others, and finds the watcher of the path. -/
theorem Inv.pending_of_noticed (h : w.Inv) {ch : Change π γ} {p : π}
    (hnoticed : w.noticed ch = some p) : (w.change ch).Pending p := by
  have hnow := (h.extendedBy_change ch).handle w.fileWatcher.inotify.queue
  cases ch with
  | write q c =>
    obtain ⟨i, hi, hnoticed⟩ := Option.bind_eq_some_iff.mp hnoticed
    obtain ⟨wd, hwd, hnoticed⟩ := Option.bind_eq_some_iff.mp hnoticed
    obtain ⟨x, hx, rfl⟩ := Option.map_eq_some_iff.mp hnoticed
    have hqueue : (w.change (.write q c)).fileWatcher.inotify.queue =
        w.fileWatcher.inotify.queue ++ [⟨wd, .modify⟩] :=
      Inotify.Instance.queue_observe_write hi hwd c
    obtain ⟨-, hevents⟩ := FileWatcher.handleEvent_of_eq_some (e := ⟨wd, .modify⟩)
      (hnow.findWatcher hx) rfl
    rw [Pending, watcherThen, hqueue, FileWatcher.handle_append, FileWatcher.handle_cons]
    refine ⟨⟨.modified, x.path⟩, ?_, rfl, rfl⟩
    change _ ∈ (FileWatcher.handleEvent _ _).events
    rw [hevents]
    exact List.mem_append_right _ List.mem_cons_self
  | _ => cases hnoticed

theorem Inv.change (h : w.Inv) {ch : Change π γ} (hin : w.InTime (.change ch)) :
    (w.change ch).Inv := by
  have hnow := h.extendedBy_change ch
  refine ⟨h.nodup, h.watched, h.known, fun p v c hv hc hne => ?_,
    fun p hp hchanged v c hv hc hne => ?_, h.got⟩
  · obtain hpending | hnoticed := hin p v c hv hc hne
    · exact hpending.mono hnow (Inotify.Instance.prefix_observe _ _ _)
    · exact h.pending_of_noticed hnoticed
  · change (w.changed || w.pc.getting.any fun p => (w.files.apply ch).read p ≠ w.files.read p) =
      false at hchanged
    change w.pc.getting = some p at hp
    rw [Bool.or_eq_false_iff, hp] at hchanged
    have hread : (w.files.apply ch).read p = w.files.read p :=
      not_not.mp (of_decide_eq_false hchanged.2)
    exact (h.taken p hp hchanged.1 v c hv (hread.symm.trans hc) hne).mono hnow.events

end Change

/-! ### Calls -/

/-- A step that ends no get and leaves the watcher as it is. -/
theorem Inv.withoutGet {w' : World π γ} (hpc : w'.pc.getting = none)
    (hnodup : (w'.fileWatcher.watchers.map FileWatcher.Watcher.path).Nodup)
    (hwatched : ∀ x ∈ w'.fileWatcher.watchers, w'.cache.contains x.path = true)
    (hcoherent : ∀ p v c, w'.held p = some v → w'.files.read p = some c → c ≠ v → w'.Pending p) :
    w'.Inv := by
  refine ⟨hnodup, hwatched, fun p batch hp => ?_, hcoherent, fun p hp => ?_, fun p v hp => ?_⟩
  · rw [hp] at hpc
    cases hpc
  · rw [hp] at hpc
    cases hpc
  · rw [hp] at hpc
    cases hpc

theorem Inv.add (h : w.Inv) (hpc : w.pc = .idle) (p : π) (lazy : Bool) : (w.add p lazy).Inv := by
  have hheld : ∀ q, w.held q = w.cache.kept q := held_eq_kept (by rw [hpc]; nofun)
  have hnow : w.watcherNow = { w.fileWatcher with events := [] } :=
    watcherNow_of_forall_ne (by rw [hpc]; nofun)
  have hadding : ∀ value, (∀ v, value = some v → w.files.read p = some v) →
      World.Inv { w with pc := .adding p value } := by
    intro value hvalue
    refine .withoutGet rfl h.nodup h.watched fun q v c hv hc hne => ?_
    have hpending : w.Pending q → World.Pending { w with pc := .adding p value } q := by
      intro hq
      rwa [Pending, watcherThen, hnow] at hq
    cases value with
    | none => exact hpending (h.coherent q v c ((hheld q).trans hv) hc hne)
    | some u =>
      rw [held] at hv
      dsimp only at hv
      split at hv
      · rename_i heq
        subst heq
        rw [← Option.some.inj hv] at hne
        exact absurd (Option.some.inj (hc.symm.trans (hvalue u rfl))) hne
      · exact hpending (h.coherent q v c ((hheld q).trans hv) hc hne)
  rw [World.add]
  split
  · exact hadding none nofun
  · split
    · exact h
    · rename_i u hu
      refine hadding (some u) fun v hv => ?_
      rwa [← hv]

theorem Inv.added [Inhabited γ] (h : w.Inv) {p : π} {value : Option γ}
    (hpc : w.pc = .adding p value) (now : Nat) : (w.added p value now).Inv := by
  have hext := FileWatcher.extendedBy_addWatch h.nodup w.files p
  refine .withoutGet rfl hext.nodup (fun x hx => ?_) fun q v c hv hc hne => ?_
  · refine (Cache.contains_set _ _ _ _ _ _).mpr ?_
    obtain hx | hx := FileWatcher.mem_watchers_addWatch hx
    · exact .inr (h.watched x hx)
    · exact .inl hx
  · have hheld : w.held q = some v := by
      change (w.cache.set p value now (-1)).kept q = some v at hv
      rw [held, hpc]
      by_cases hq : q = p
      · subst hq
        rw [Cache.kept_set_self] at hv
        rw [hv]
        exact if_pos rfl
      · rw [Cache.kept_set_of_ne hq] at hv
        cases value with
        | none => exact hv
        | some u => exact (if_neg hq).trans hv
    refine (h.coherent q v c hheld hc hne).mono ?_ ?_
    · rw [watcherNow_of_forall_ne (by rw [hpc]; nofun),
        watcherNow_of_forall_ne (w := w.added p value now) nofun]
      exact hext.cleared
    · simp only [World.added, FileWatcher.queue_addWatch, List.prefix_rfl]

theorem Inv.remove (h : w.Inv) (hpc : w.pc = .idle) {q : π} (hin : ∀ p v c, p ≠ q →
    w.held p = some v → w.files.read p = some c → c ≠ v → w.Pending p →
      World.Pending { w with fileWatcher := w.fileWatcher.rmWatch q } p) : (w.remove q).Inv := by
  have hheld : ∀ p, (w.remove q).held p = (w.cache.erase q).kept p :=
    held_eq_kept (w := w.remove q) (by change ∀ _ _, w.pc ≠ _; rw [hpc]; nofun)
  refine .withoutGet (congrArg Pc.getting hpc) ?_ (fun x hx => ?_) fun p v c hv hc hne => ?_
  · change (List.map _ (w.fileWatcher.rmWatch q).watchers).Nodup
    rw [FileWatcher.watchers_rmWatch]
    exact h.nodup.sublist (List.eraseP_sublist.map _)
  · change x ∈ (w.fileWatcher.rmWatch q).watchers at hx
    rw [FileWatcher.watchers_rmWatch] at hx
    refine (Cache.contains_erase_of_ne (FileWatcher.path_ne_of_mem_eraseP h.nodup hx) _).trans ?_
    exact h.watched x (List.mem_of_mem_eraseP hx)
  · rw [hheld] at hv
    have hp : p ≠ q := by
      rintro rfl
      rw [Cache.kept_erase_self] at hv
      cases hv
    rw [Cache.kept_erase_of_ne hp, ← held_eq_kept (by rw [hpc]; nofun)] at hv
    exact hin p v c hp hv hc hne (h.coherent p v c hv hc hne)

theorem Inv.clear (hpc : w.pc = .idle) : w.clear.Inv := by
  refine .withoutGet (congrArg Pc.getting hpc) List.nodup_nil nofun fun p v c hv _ _ => ?_
  rw [held_eq_kept (w := w.clear) (by change ∀ _ _, w.pc ≠ _; rw [hpc]; nofun)] at hv
  cases hv

/-! ### Gets -/

theorem Inv.get (h : w.Inv) (hpc : w.pc = .idle) (p : π) : (w.get p).Inv := by
  have hnow : w.watcherThen.ExtendedBy (w.get p).watcherNow := by
    rw [watcherThen, watcherNow_of_forall_ne (by rw [hpc]; nofun)]
    exact FileWatcher.ExtendedBy.handle _ (.of_eq rfl h.nodup fun _ hx => hx)
  have hmarked : ∀ q v c, w.cache.kept q = some v → w.files.read q = some c → c ≠ v →
      Marked (w.get p).watcherNow.events q := by
    intro q v c hv hc hne
    rw [← held_eq_kept (by rw [hpc]; nofun)] at hv
    exact Marked.mono (h.coherent q v c hv hc hne) hnow.events
  refine ⟨h.nodup, h.watched, fun _ _ _ => nofun, hmarked, fun q hq _ => ?_, nofun⟩
  obtain rfl := Option.some.inj hq
  exact hmarked p

theorem Inv.handleEvent (h : w.Inv) {p : π} {e : Inotify.Event} {batch : List Inotify.Event}
    (hpc : w.pc = .running p (e :: batch)) :
    World.Inv { w with fileWatcher := w.fileWatcher.handleEvent e, pc := .running p batch } := by
  obtain ⟨hsub, hnew⟩ := w.fileWatcher.handleEvent_cases e
  have hnow : w.watcherNow = (w.fileWatcher.handleEvent e).handle batch :=
    watcherNow_of_running hpc
  have hnodup := h.nodup.sublist (hsub.map FileWatcher.Watcher.path)
  refine ⟨hnodup, fun x hx => h.watched x (hsub.subset hx), fun _ _ _ x hx => ?_,
    fun q v c hv hc hne => ?_, fun q hq hchanged v c hv hc hne => ?_, nofun⟩
  · obtain heq | ⟨y, hy, type, heq⟩ := hnew
    · exact h.known p _ hpc x (heq ▸ hx)
    · rw [heq, List.mem_append, List.mem_singleton] at hx
      obtain hx | rfl := hx
      · exact h.known p _ hpc x hx
      · exact h.watched y hy
  · rw [held_eq_kept (by nofun), ← held_eq_kept (w := w) (by rw [hpc]; nofun)] at hv
    refine (h.coherent q v c hv hc hne).mono ?_ (FileWatcher.prefix_handleEvent _ _)
    rw [hnow]
    exact FileWatcher.ExtendedBy.handle _ (.of_eq rfl hnodup fun _ hx => hx)
  · obtain rfl := Option.some.inj hq
    have hmarked := h.taken p (by rw [hpc]; rfl) hchanged v c hv hc hne
    rwa [hnow] at hmarked

/-- What is invalidated is held no more, and what else is to be waits in the queue. -/
theorem Inv.notifyObservers (h : w.Inv) {p : π} (hpc : w.pc = .running p []) :
    (w.notifyObservers p).Inv := by
  obtain ⟨hret, hkept, hcontains⟩ := handle_spec (h.known p [] hpc)
  have hnow : w.watcherNow = w.fileWatcher := watcherNow_of_running hpc
  have heq : w.notifyObservers p =
      { w with cache := (handle w.cache w.fileWatcher.events).1, pc := .looking p } := by
    rw [World.notifyObservers, hret]
    rfl
  rw [heq]
  refine ⟨h.nodup, fun x hx => hcontains _ (h.watched x hx), nofun, fun q v c hv hc hne => ?_,
    fun q hq hchanged v c hv hc hne => ?_, nofun⟩
  · rw [held_eq_kept (by nofun)] at hv
    obtain ⟨hv, hmarked⟩ := hkept q v hv
    rw [← held_eq_kept (w := w) (by rw [hpc]; nofun)] at hv
    obtain ⟨x, hx, hx'⟩ := h.coherent q v c hv hc hne
    rw [watcherThen, hnow] at hx
    obtain hx | hx := FileWatcher.mem_events_cleared _ hx
    · exact absurd ⟨x, hx, hx'⟩ hmarked
    · exact ⟨x, hx, hx'⟩
  · obtain rfl := Option.some.inj hq
    obtain ⟨hv, hmarked⟩ := hkept p v hv
    have hstale := h.taken p (by rw [hpc]; rfl) hchanged v c hv hc hne
    rw [hnow] at hstale
    exact absurd hstale hmarked

theorem Inv.look (h : w.Inv) {p : π} (hpc : w.pc = .looking p) (now : Nat) :
    (w.look p now).Inv := by
  have hheld : ∀ q, w.held q = w.cache.kept q := held_eq_kept (by rw [hpc]; nofun)
  have hnow : w.watcherNow = { w.fileWatcher with events := [] } :=
    watcherNow_of_forall_ne (by rw [hpc]; nofun)
  have hcoherent : ∀ q v c, w.cache.kept q = some v → w.files.read q = some c → c ≠ v →
      Marked (({ w.fileWatcher with events := [] } : FileWatcher π).handle
        w.fileWatcher.inotify.queue).events q := by
    intro q v c hv hc hne
    have hpending := h.coherent q v c ((hheld q).trans hv) hc hne
    rwa [Pending, watcherThen, hnow] at hpending
  rw [World.look]
  split
  · exact .withoutGet rfl h.nodup h.watched hcoherent
  · rename_i cache hget
    obtain ⟨hkept, hcontains⟩ := Cache.get_eq_thrown hget
    refine .withoutGet rfl h.nodup (fun x hx => hcontains _ (h.watched x hx)) fun q v c hv => ?_
    exact hcoherent q v c ((hkept q).symm.trans hv)
  · rename_i u cache hget
    obtain ⟨hfrom, hself, hother, hcontains⟩ := Cache.get_eq_value hget
    refine ⟨h.nodup, fun x hx => hcontains _ (h.watched x hx), nofun, fun q v c hv hc hne => ?_,
      fun q hq hchanged v c hv hc hne => ?_, fun q v hq => ?_⟩
    · change cache.kept q = some v at hv
      by_cases hq : q = p
      · subst hq
        rw [hself] at hv
        obtain hfrom | hfrom := hfrom
        · exact hcoherent q v c (hfrom.trans hv) hc hne
        · exact absurd (Option.some.inj (hc.symm.trans (hfrom.trans hv))) hne
      · rw [hother q hq] at hv
        exact hcoherent q v c hv hc hne
    · obtain rfl := Option.some.inj hq
      change cache.kept p = some v at hv
      rw [hself] at hv
      obtain hfrom | hfrom := hfrom
      · have hmarked := h.taken p (by rw [hpc]; rfl) hchanged v c (hfrom.trans hv) hc hne
        rw [hnow] at hmarked
        exact absurd hmarked (not_marked_nil p)
      · exact absurd (Option.some.inj (hc.symm.trans (hfrom.trans hv))) hne
    · cases hq
      exact hself

theorem Inv.returned (h : w.Inv) {p : π} {v : γ} (hpc : w.pc = .got p v) :
    World.Inv { w with pc := .idle } := by
  refine .withoutGet rfl h.nodup h.watched fun q v c hv hc hne => ?_
  have hpending := h.coherent q v c ((held_eq_kept (by rw [hpc]; nofun) q).trans hv) hc hne
  rwa [Pending, watcherThen, watcherNow_of_forall_ne (by rw [hpc]; nofun)] at hpending

theorem Inv.next [Inhabited γ] (h : w.Inv) {now : Nat} {w' : World π γ}
    (hstep : w.next now = some w') : w'.Inv := by
  rw [World.next] at hstep
  split at hstep
  · cases hstep
  · rename_i p value hpc
    cases hstep
    exact h.added hpc now
  · rename_i p e batch hpc
    cases hstep
    exact h.handleEvent hpc
  · rename_i p hpc
    cases hstep
    exact h.notifyObservers hpc
  · rename_i p hpc
    cases hstep
    exact h.look hpc now
  · rename_i p v hpc
    cases hstep
    exact h.returned hpc

variable [DecidableEq γ] [Inhabited γ]

theorem Inv.step (h : w.Inv) {m : Move π γ} {w' : World π γ} (hin : w.InTime m)
    (hstep : w.step m = some w') : w'.Inv := by
  cases m with
  | change ch =>
    cases hstep
    exact h.change hin
  | add p lazy =>
    obtain ⟨hidle, heq⟩ := Option.ite_none_right_eq_some.mp hstep
    cases heq
    exact h.add (isIdle_iff.mp hidle) p lazy
  | remove p =>
    obtain ⟨hidle, heq⟩ := Option.ite_none_right_eq_some.mp hstep
    cases heq
    exact h.remove (isIdle_iff.mp hidle) hin
  | clear =>
    obtain ⟨hidle, heq⟩ := Option.ite_none_right_eq_some.mp hstep
    cases heq
    exact Inv.clear (isIdle_iff.mp hidle)
  | get p =>
    obtain ⟨hidle, heq⟩ := Option.ite_none_right_eq_some.mp hstep
    cases heq
    exact h.get (isIdle_iff.mp hidle) p
  | next now => exact h.next hstep

/-- In every run whose changes are in time, a get gives what the file has. -/
theorem isCurrent_of_reachable {files : Files π γ} {w : World π γ}
    (h : Transition.Reaches step InTime (· = init files) w) : w.IsCurrent := by
  refine Inv.isCurrent (h.invariant (fun w hw => ?_) fun w m w' hw hin hstep => ?_)
  · exact hw ▸ inv_init files
  · exact hw.step hin hstep

/-! ### Two files -/

/-- An evaluated run whose changes are in time. -/
theorem exists_inTime [Fintype π] [Fintype γ] (files : Files π γ) (moves : List (Move π γ))
    (P : World π γ → Prop) [DecidablePred P]
    (h : (Transition.runs (Transition.guarded step fun w m => decide (w.InTime m)) (init files)
      moves).any (fun w => decide (P w)) = true) :
    ∃ w, Transition.Reaches step InTime (· = init files) w ∧ P w := by
  obtain ⟨w, hw, hp⟩ := @Transition.Reaches.exists_of_runs_guarded _ _ step
    (· = init files) _ _ _ P _ rfl h
  exact ⟨w, hw.mono fun _ _ hin => of_decide_eq_true hin, hp⟩

/-- Every path has a file of its own. -/
def filesOf {n : Nat} (content : Fin n → γ) : Files (Fin n) γ where
  inode p := some p
  links i := if i < n then 1 else 0
  content i := if h : i < n then content ⟨i, h⟩ else default
  next := n
  fresh _ _ h := Option.some.inj h ▸ Fin.isLt _

/-- A write in place is noticed. -/
theorem isCurrent_write : ∃ w : World (Fin 2) (Fin 3),
    w.pc = .got 0 2 ∧ w.changed = false ∧ w.files.read 0 = some 2 ∧ w.IsCurrent := by
  obtain ⟨w, hw, hpc, hchanged, hread⟩ := exists_inTime (filesOf ![1, 0])
    [.add 0 false, .next 7, .change (.write 0 2), .get 0, .next 8, .next 8, .next 8]
    (fun w : World (Fin 2) (Fin 3) =>
      w.pc = .got 0 2 ∧ w.changed = false ∧ w.files.read 0 = some 2) (by decide +kernel)
  exact ⟨w, hpc, hchanged, hread, isCurrent_of_reachable hw⟩

/-- Another file is renamed over the one that is cached. -/
theorem not_isCurrent_rename : ¬ ∀ (files : Files (Fin 2) (Fin 3)) (w : World (Fin 2) (Fin 3)),
    Transition.Reaches step Transition.unrestricted (· = init files) w → w.IsCurrent := by
  intro h
  have hrun : (Transition.runs step (init (filesOf ![1, 2]))
      [.add 0 false, .next 7, .change (.rename 1 0), .get 0, .next 8, .next 8, .next 8, .next 8,
        .next 8]).any (fun w : World (Fin 2) (Fin 3) => decide (w.pc = .got 0 1 ∧
          w.changed = false ∧ w.files.read 0 = some 2)) = true := by decide +kernel
  obtain ⟨w, hw, hpc, hchanged, hread⟩ :=
    @Transition.Reaches.exists_of_runs _ _ step (· = init (filesOf ![1, 2])) _ _ _ _ rfl hrun
  exact absurd (h _ w hw 0 1 hpc hchanged 2 hread) (by decide)

end World

end FileCache

end Sihd.Sys
