import Sihd.Lib.FileTree

/-!
# Walks in a file tree

A path is a list of names, of which `dot` stands for the directory itself and `dotdot` for
its parent. A walk follows the names from a directory, and the links that it meets: those
on the way, and the one at the end where `last` is set. It may end where nothing is, in a
directory that is there.
-/

namespace FileTree

variable {α δ : Type*} [DecidableEq α] {IsName : α → Prop}

/-- Why a walk, or what is done at its end, fails. -/
inductive Errno where
  | noEntry
  | entryExists
  | other
  deriving DecidableEq

/-- Follow the names from a directory; `go` goes on behind a link. -/
def follow (t : FileTree IsName δ) (dot dotdot : α) (last : Bool)
    (go : List α → List α → Except Errno (List α)) : List α → List α → Except Errno (List α)
  | dir, [] => .ok dir
  | dir, name :: names =>
      if name = dot then follow t dot dotdot last go dir names
      else if name = dotdot then follow t dot dotdot last go dir.dropLast names
      else
        match t.entry (dir ++ [name]) with
        | none => if names = [] then .ok (dir ++ [name]) else .error .noEntry
        | some (.directory _) => follow t dot dotdot last go (dir ++ [name]) names
        | some (.file _) => if names = [] then .ok (dir ++ [name]) else .error .other
        | some (.link absolute target) =>
            if names = [] ∧ last = false then .ok (dir ++ [name])
            else go (if absolute then [] else dir) (target ++ names)

/-- Follow the names from a directory, through so many links at most. -/
def walk (t : FileTree IsName δ) (dot dotdot : α) (last : Bool) :
    Nat → List α → List α → Except Errno (List α)
  | 0 => t.follow dot dotdot last fun _ _ => .error .other
  | links + 1 => t.follow dot dotdot last (t.walk dot dotdot last links)

/-- Where a walk can end: at an entry, or at a free place in a directory. -/
structure IsEnd (t : FileTree IsName δ) (last : Bool) (p : List α) : Prop where
  place : (t.entry p).isSome ∨ p ≠ [] ∧ t.isDirectory p.dropLast = true
  link : last = true → ∀ absolute target, t.entry p ≠ some (.link absolute target)

section

variable {t : FileTree IsName δ} {dot dotdot : α} {last : Bool}
  {go : List α → List α → Except Errno (List α)} {dir p : List α}

omit [DecidableEq α] in
theorem isEnd_of_isDirectory (h : t.isDirectory p = true) : t.IsEnd last p where
  place := .inl (isSome_of_isDirectory h)
  link _ absolute target heq := by
    obtain ⟨d, hd⟩ := isDirectory_iff.mp h
    exact absurd (hd.symm.trans heq) (by simp)

omit [DecidableEq α] in
theorem isDirectory_dropLast (h : t.isDirectory dir = true) :
    t.isDirectory dir.dropLast = true := by
  by_cases hdir : dir = []
  · rw [hdir]
    exact t.isDirectory_root
  · exact isDirectory_parent hdir (isSome_of_isDirectory h)

theorem isEnd_follow (hgo : ∀ dir names p, t.isDirectory dir = true → go dir names = .ok p →
    t.IsEnd last p) {names : List α} (hdir : t.isDirectory dir = true)
    (h : t.follow dot dotdot last go dir names = .ok p) : t.IsEnd last p := by
  induction names generalizing dir with
  | nil =>
    rw [follow, Except.ok.injEq] at h
    exact h ▸ isEnd_of_isDirectory hdir
  | cons name names ih =>
    rw [follow] at h
    split at h
    · exact ih hdir h
    · split at h
      · exact ih (isDirectory_dropLast hdir) h
      · split at h
        · rename_i hentry
          split at h
          · rw [Except.ok.injEq] at h
            subst h
            refine ⟨.inr ⟨by simp, by rwa [List.dropLast_concat]⟩, fun _ _ _ heq => ?_⟩
            exact absurd (hentry.symm.trans heq) (by simp)
          · cases h
        · rename_i d hentry
          exact ih (isDirectory_iff.mpr ⟨d, hentry⟩) h
        · rename_i id hentry
          split at h
          · rw [Except.ok.injEq] at h
            subst h
            refine ⟨.inl (by rw [hentry]; rfl), fun _ _ _ heq => ?_⟩
            exact absurd (hentry.symm.trans heq) (by simp)
          · cases h
        · rename_i absolute target hentry
          split at h
          · rename_i hlast
            rw [Except.ok.injEq] at h
            subst h
            refine ⟨.inl (by rw [hentry]; rfl), fun htrue => ?_⟩
            exact absurd (hlast.2.symm.trans htrue) Bool.false_ne_true
          · refine hgo _ _ _ ?_ h
            split
            · exact t.isDirectory_root
            · exact hdir

theorem isEnd_walk {links : Nat} {names : List α} (hdir : t.isDirectory dir = true)
    (h : t.walk dot dotdot last links dir names = .ok p) : t.IsEnd last p := by
  induction links generalizing dir names p with
  | zero => exact isEnd_follow (fun _ _ _ _ hgo => by cases hgo) hdir h
  | succ links ih => exact isEnd_follow (fun _ _ _ hdir' hgo => ih hdir' hgo) hdir h

/-- A walk down to a directory meets no link. -/
theorem follow_directory {names : List α} (hnames : ∀ name ∈ names, name ≠ dotdot)
    (h : t.isDirectory (dir ++ names.filter (· ≠ dot)) = true) :
    t.follow dot dotdot last go dir names = .ok (dir ++ names.filter (· ≠ dot)) := by
  induction names generalizing dir with
  | nil => rw [follow, List.filter_nil, List.append_nil]
  | cons name names ih =>
    rw [List.forall_mem_cons] at hnames
    rw [follow]
    by_cases hdot : name = dot
    · rw [if_pos hdot]
      rw [List.filter_cons_of_neg (by simpa using hdot)] at h ⊢
      exact ih hnames.2 h
    · rw [if_neg hdot, if_neg hnames.1]
      rw [List.filter_cons_of_pos (by simpa using hdot),
        List.append_cons dir name (names.filter (· ≠ dot))] at h ⊢
      have hname : t.isDirectory (dir ++ [name]) = true := by
        by_cases hrest : names.filter (· ≠ dot) = []
        · rwa [hrest, List.append_nil] at h
        · exact isDirectory_of_append hrest (isSome_of_isDirectory h)
      obtain ⟨d, hd⟩ := isDirectory_iff.mp hname
      rw [hd]
      exact ih hnames.2 h

theorem walk_directory {links : Nat} {names : List α} (hnames : ∀ name ∈ names, name ≠ dotdot)
    (h : t.isDirectory (dir ++ names.filter (· ≠ dot)) = true) :
    t.walk dot dotdot last links dir names = .ok (dir ++ names.filter (· ≠ dot)) := by
  cases links <;> exact follow_directory hnames h

/-- A walk along the place of an entry that is no link ends there. -/
theorem follow_entry {names : List α} (hnames : ∀ name ∈ names, name ≠ dot ∧ name ≠ dotdot)
    {e : Entry α δ} (h : t.entry (dir ++ names) = some e)
    (hlink : ∀ absolute target, e ≠ .link absolute target) :
    t.follow dot dotdot last go dir names = .ok (dir ++ names) := by
  induction names generalizing dir with
  | nil => rw [follow, List.append_nil]
  | cons name names ih =>
    rw [List.forall_mem_cons] at hnames
    rw [follow, if_neg hnames.1.1, if_neg hnames.1.2]
    by_cases hrest : names = []
    · rw [hrest] at h ⊢
      rw [h]
      cases e with
      | directory d => rfl
      | file id => rfl
      | link absolute target => exact absurd rfl (hlink absolute target)
    · rw [List.append_cons dir name names] at h ⊢
      obtain ⟨d, hd⟩ := isDirectory_iff.mp
        (isDirectory_of_append hrest (Option.isSome_iff_exists.mpr ⟨e, h⟩))
      rw [hd]
      exact ih hnames.2 h

theorem walk_entry {links : Nat} {names : List α}
    (hnames : ∀ name ∈ names, name ≠ dot ∧ name ≠ dotdot) {e : Entry α δ}
    (h : t.entry (dir ++ names) = some e) (hlink : ∀ absolute target, e ≠ .link absolute target) :
    t.walk dot dotdot last links dir names = .ok (dir ++ names) := by
  cases links <;> exact follow_entry hnames h hlink

/-- The data of directories does not matter to a walk. -/
theorem follow_alike {t' : FileTree IsName δ} (h : t.Alike t') (names : List α) :
    t'.follow dot dotdot last go dir names = t.follow dot dotdot last go dir names := by
  induction names generalizing dir with
  | nil => rfl
  | cons name names ih =>
    rw [follow, follow, ih, ih]
    rcases h (dir ++ [name]) with heq | ⟨hdirectory, hdirectory'⟩
    · rw [heq, ih]
    · obtain ⟨d, hd⟩ := isDirectory_iff.mp hdirectory
      obtain ⟨d', hd'⟩ := isDirectory_iff.mp hdirectory'
      rw [hd, hd', ih]

theorem walk_alike {t' : FileTree IsName δ} (h : t.Alike t') (last : Bool) (links : Nat) :
    t'.walk dot dotdot last links = t.walk dot dotdot last links := by
  induction links with
  | zero => exact funext fun _ => funext fun names => follow_alike h names
  | succ links ih =>
    funext dir names
    rw [walk, walk, ih]
    exact follow_alike h names

/-- A walk that ended at a free place ends at the file that is put there. -/
theorem follow_add (h : t.CanAdd p) {go' : List α → List α → Except Errno (List α)}
    (hgo : ∀ dir names, go dir names = .ok p → go' dir names = .ok p) {names : List α}
    (hfollow : t.follow dot dotdot last go dir names = .ok p) :
    (t.add p .file h).follow dot dotdot last go' dir names = .ok p := by
  have hold : ∀ {q e}, t.entry q = some e → (t.add p .file h).entry q = some e := fun hq =>
    (Function.update_of_ne (by rintro rfl; exact absurd (hq.symm.trans h.entry) (by simp)) _
      _).trans hq
  induction names generalizing dir with
  | nil =>
    rw [follow] at hfollow ⊢
    exact hfollow
  | cons name names ih =>
    rw [follow] at hfollow ⊢
    split at hfollow
    · rename_i hdot
      rw [if_pos hdot]
      exact ih hfollow
    · rename_i hdot
      rw [if_neg hdot]
      split at hfollow
      · rename_i hdotdot
        rw [if_pos hdotdot]
        exact ih hfollow
      · rename_i hdotdot
        rw [if_neg hdotdot]
        split at hfollow
        · rename_i hentry
          split at hfollow
          · rename_i hnames
            rw [Except.ok.injEq] at hfollow
            have hnew : (t.add p .file h).entry (dir ++ [name]) = some (.file t.next) :=
              hfollow ▸ Function.update_self _ _ _
            rw [hnew]
            dsimp only
            rw [if_pos hnames, hfollow]
          · cases hfollow
        · rename_i d hentry
          rw [hold hentry]
          exact ih hfollow
        · rename_i id hentry
          rw [hold hentry]
          exact hfollow
        · rename_i absolute target hentry
          rw [hold hentry]
          dsimp only
          split at hfollow
          · rename_i hlast
            rw [if_pos hlast]
            exact hfollow
          · rename_i hlast
            rw [if_neg hlast]
            exact hgo _ _ hfollow

theorem walk_add (h : t.CanAdd p) {links : Nat} {names : List α}
    (hwalk : t.walk dot dotdot last links dir names = .ok p) :
    (t.add p .file h).walk dot dotdot last links dir names = .ok p := by
  induction links generalizing dir names with
  | zero => exact follow_add h (fun _ _ hgo => by cases hgo) hwalk
  | succ links ih => exact follow_add h (fun _ _ hgo => ih hgo) hwalk

end

end FileTree
