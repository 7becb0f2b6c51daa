import Mathlib.Data.List.Basic
import Mathlib.Data.List.Infix
import Mathlib.Logic.Function.Basic
import Mathlib.Tactic.Common

/-!
# File trees

A place is the list of the names that lead to it from the root. A file tree tells what is at
each place: a directory, with some data; a file, which is known by a number and has one
place; or a link to another path. What is in a tree is in a directory.

Entries are added to a directory, removed when nothing is below them, and moved with all
that is below them. `Keeps` says what such a change leaves alone.
-/

inductive FileTree.Entry (α δ : Type*) where
  | directory (d : δ)
  | file (id : Nat)
  | link (absolute : Bool) (target : List α)
  deriving DecidableEq

/-- An entry to be added; a file gets a new number. -/
inductive FileTree.New (α δ : Type*) where
  | directory (d : δ)
  | file
  | link (absolute : Bool) (target : List α)

def FileTree.New.entry {α δ : Type*} (id : Nat) : New α δ → Entry α δ
  | .directory d => .directory d
  | .file => .file id
  | .link absolute target => .link absolute target

open FileTree in
structure FileTree {α : Type*} (IsName : α → Prop) (δ : Type*) where
  entry : List α → Option (Entry α δ)
  places : List (List α)
  next : Nat
  covers : ∀ p, (entry p).isSome → p ∈ places
  root : ∃ d, entry [] = some (.directory d)
  parent : ∀ p, p ≠ [] → (entry p).isSome → ∃ d, entry p.dropLast = some (.directory d)
  names : ∀ p, (entry p).isSome → ∀ name ∈ p, IsName name
  once : ∀ p q id, entry p = some (.file id) → entry q = some (.file id) → p = q
  fresh : ∀ p id, entry p = some (.file id) → id < next

namespace FileTree

variable {α δ : Type*} {IsName : α → Prop}

/-- What can be asked of an entry of a tree. -/
def isDirectory (t : FileTree IsName δ) (p : List α) : Bool :=
  match t.entry p with
  | some (.directory _) => true
  | _ => false

/-- Nothing is below a place. -/
def IsEmptyAt (t : FileTree IsName δ) (p : List α) : Prop :=
  ∀ q ∈ t.places, p <+: q → q ≠ p → (t.entry q).isNone

instance [DecidableEq α] (t : FileTree IsName δ) (p : List α) : Decidable (t.IsEmptyAt p) :=
  inferInstanceAs (Decidable (∀ q ∈ t.places, _))

section

variable {t : FileTree IsName δ} {p q : List α}

theorem isDirectory_iff : t.isDirectory p = true ↔ ∃ d, t.entry p = some (.directory d) := by
  rw [isDirectory]
  split
  · rename_i d h
    exact iff_of_true rfl ⟨d, h⟩
  · rename_i h
    exact iff_of_false Bool.false_ne_true fun ⟨d, hd⟩ => h d hd

theorem isSome_of_isDirectory (h : t.isDirectory p = true) : (t.entry p).isSome := by
  obtain ⟨d, hd⟩ := isDirectory_iff.mp h
  rw [hd]
  rfl

theorem isDirectory_root (t : FileTree IsName δ) : t.isDirectory [] = true :=
  isDirectory_iff.mpr t.root

theorem isDirectory_parent (hp : p ≠ []) (h : (t.entry p).isSome) :
    t.isDirectory p.dropLast = true := isDirectory_iff.mpr (t.parent p hp h)

/-- What leads to an entry is a directory. -/
theorem isDirectory_of_append {rest : List α} (hrest : rest ≠ [])
    (h : (t.entry (p ++ rest)).isSome) : t.isDirectory p = true := by
  induction rest using List.reverseRecOn with
  | nil => exact absurd rfl hrest
  | append_singleton rest name ih =>
    have hparent := isDirectory_parent (by simp) h
    rw [← List.append_assoc, List.dropLast_concat] at hparent
    cases rest with
    | nil => rwa [List.append_nil] at hparent
    | cons first rest => exact ih (List.cons_ne_nil _ _) (isSome_of_isDirectory hparent)

theorem IsEmptyAt.entry (h : t.IsEmptyAt p) (hbelow : p <+: q) (hne : q ≠ p) :
    t.entry q = none := by
  by_contra hsome
  have hmem := t.covers q (Option.isSome_iff_ne_none.mpr hsome)
  exact hsome (Option.isNone_iff_eq_none.mp (h q hmem hbelow hne))

end

/-! ### Changes -/

/-- An entry may be put at a place. -/
structure CanAdd (t : FileTree IsName δ) (p : List α) : Prop where
  ne : p ≠ []
  parent : t.isDirectory p.dropLast = true
  name : ∀ name ∈ p.getLast?, IsName name
  free : (t.entry p).isNone

/-- A place may be moved to another, with what is below it. -/
structure CanMove (t : FileTree IsName δ) (src dst : List α) : Prop where
  ne : dst ≠ []
  apart : ¬ src <+: dst
  parent : t.isDirectory dst.dropLast = true
  name : ∀ name ∈ dst.getLast?, IsName name
  empty : t.IsEmptyAt dst

section Decidable

variable [DecidableEq α] [DecidablePred IsName] (t : FileTree IsName δ)

instance (p : List α) : Decidable (t.CanAdd p) :=
  decidable_of_iff (p ≠ [] ∧ t.isDirectory p.dropLast = true ∧
      (∀ name ∈ p.getLast?, IsName name) ∧ (t.entry p).isNone)
    ⟨fun ⟨ne, parent, name, free⟩ => ⟨ne, parent, name, free⟩,
      fun ⟨ne, parent, name, free⟩ => ⟨ne, parent, name, free⟩⟩

instance (src dst : List α) : Decidable (t.CanMove src dst) :=
  decidable_of_iff (dst ≠ [] ∧ ¬ src <+: dst ∧ t.isDirectory dst.dropLast = true ∧
      (∀ name ∈ dst.getLast?, IsName name) ∧ t.IsEmptyAt dst)
    ⟨fun ⟨ne, apart, parent, name, empty⟩ => ⟨ne, apart, parent, name, empty⟩,
      fun ⟨ne, apart, parent, name, empty⟩ => ⟨ne, apart, parent, name, empty⟩⟩

end Decidable

section

variable [DecidableEq α] {t : FileTree IsName δ} {p src dst : List α}

omit [DecidableEq α] in
theorem CanAdd.entry (h : t.CanAdd p) : t.entry p = none := Option.isNone_iff_eq_none.mp h.free

omit [DecidableEq α] in
theorem eq_of_newEntry {e : New α δ} {n id : Nat} (h : e.entry n = .file id) : id = n := by
  cases e with
  | file =>
    cases h
    rfl
  | _ => cases h

omit [DecidableEq α] in
theorem isName_of_parent (hne : p ≠ []) (hparent : t.isDirectory p.dropLast = true)
    (hname : ∀ name ∈ p.getLast?, IsName name) : ∀ name ∈ p, IsName name := by
  intro name hmem
  rw [← List.dropLast_concat_getLast hne, List.mem_append, List.mem_singleton] at hmem
  rcases hmem with hmem | rfl
  · exact t.names _ (isSome_of_isDirectory hparent) name hmem
  · exact hname _ (List.getLast?_eq_some_getLast hne)

/-- The tree of a root that is empty. -/
def create (IsName : α → Prop) (d : δ) : FileTree IsName δ where
  entry p := if p = [] then some (.directory d) else none
  places := [[]]
  next := 0
  covers p hp := by
    split at hp
    · rename_i hnil
      exact hnil ▸ List.mem_cons_self
    · cases hp
  root := ⟨d, if_pos rfl⟩
  parent p hne hp := by
    rw [if_neg hne] at hp
    cases hp
  names p hp := by
    split at hp
    · rename_i hnil
      exact fun name hmem => by rw [hnil] at hmem; cases hmem
    · cases hp
  once p q id hp _ := by split at hp <;> cases hp
  fresh p id hp := by split at hp <;> cases hp

/-- Put an entry at a place where there is none. -/
def add (t : FileTree IsName δ) (p : List α) (e : New α δ) (h : t.CanAdd p) :
    FileTree IsName δ where
  entry := Function.update t.entry p (some (e.entry t.next))
  places := p :: t.places
  next := t.next + 1
  covers q hq := by
    rw [Function.update_apply] at hq
    split at hq
    · rename_i hqp
      exact hqp ▸ List.mem_cons_self
    · exact List.mem_cons_of_mem _ (t.covers q hq)
  root := by
    rw [Function.update_of_ne h.ne.symm]
    exact t.root
  parent q hne hq := by
    have hold : ∃ d, t.entry q.dropLast = some (.directory d) := by
      rw [Function.update_apply] at hq
      split at hq
      · rename_i hqp
        exact hqp ▸ isDirectory_iff.mp h.parent
      · exact t.parent q hne hq
    obtain ⟨d, hd⟩ := hold
    refine ⟨d, ?_⟩
    rw [Function.update_of_ne, hd]
    rintro rfl
    exact absurd (hd.symm.trans h.entry) (by simp)
  names q hq := by
    rw [Function.update_apply] at hq
    split at hq
    · rename_i hqp
      exact hqp ▸ isName_of_parent h.ne h.parent h.name
    · exact t.names q hq
  once q r id hq hr := by
    have hold : ∀ {s}, s ≠ p →
        Function.update t.entry p (some (e.entry t.next)) s = some (.file id) →
          t.entry s = some (.file id) := fun hs heq => by rwa [Function.update_of_ne hs] at heq
    have hnew : Function.update t.entry p (some (e.entry t.next)) p = some (.file id) →
        id = t.next := fun heq => by
      rw [Function.update_self, Option.some.injEq] at heq
      exact eq_of_newEntry heq
    by_cases hqp : q = p <;> by_cases hrp : r = p
    · exact hqp.trans hrp.symm
    · exact absurd (hnew (hqp ▸ hq)) (t.fresh r id (hold hrp hr)).ne
    · exact absurd (hnew (hrp ▸ hr)) (t.fresh q id (hold hqp hq)).ne
    · exact t.once q r id (hold hqp hq) (hold hrp hr)
  fresh q id hq := by
    rw [Function.update_apply] at hq
    split at hq
    · rw [Option.some.injEq] at hq
      rw [eq_of_newEntry hq]
      exact Nat.lt_succ_self _
    · exact Nat.lt_succ_of_lt (t.fresh q id hq)

/-- Change the data of a directory. -/
def setDirectory (t : FileTree IsName δ) (p : List α) (d : δ) (h : t.isDirectory p = true) :
    FileTree IsName δ where
  entry := Function.update t.entry p (some (.directory d))
  places := t.places
  next := t.next
  covers q hq := by
    rw [Function.update_apply] at hq
    split at hq
    · rename_i hqp
      exact hqp ▸ t.covers p (isSome_of_isDirectory h)
    · exact t.covers q hq
  root := by
    rw [Function.update_apply]
    split
    · exact ⟨d, rfl⟩
    · exact t.root
  parent q hne hq := by
    have hold : (t.entry q).isSome := by
      rw [Function.update_apply] at hq
      split at hq
      · rename_i hqp
        exact hqp ▸ isSome_of_isDirectory h
      · exact hq
    rw [Function.update_apply]
    split
    · exact ⟨d, rfl⟩
    · exact t.parent q hne hold
  names q hq := by
    rw [Function.update_apply] at hq
    split at hq
    · rename_i hqp
      exact hqp ▸ t.names p (isSome_of_isDirectory h)
    · exact t.names q hq
  once q r id hq hr := by
    have hold : ∀ {s}, Function.update t.entry p (some (.directory d)) s = some (.file id) →
        t.entry s = some (.file id) := fun heq => by
      rw [Function.update_apply] at heq
      split at heq
      · cases heq
      · exact heq
    exact t.once q r id (hold hq) (hold hr)
  fresh q id hq := by
    rw [Function.update_apply] at hq
    split at hq
    · cases hq
    · exact t.fresh q id hq

/-- Remove a place with nothing below it. -/
def remove (t : FileTree IsName δ) (p : List α) (hne : p ≠ []) (h : t.IsEmptyAt p) :
    FileTree IsName δ where
  entry := Function.update t.entry p none
  places := t.places
  next := t.next
  covers q hq := by
    rw [Function.update_apply] at hq
    split at hq
    · cases hq
    · exact t.covers q hq
  root := by
    rw [Function.update_of_ne hne.symm]
    exact t.root
  parent q hq hsome := by
    rw [Function.update_apply] at hsome
    split at hsome
    · cases hsome
    · rw [Function.update_of_ne]
      · exact t.parent q hq hsome
      · intro hparent
        refine absurd (h.entry ?_ ‹_›) (Option.isSome_iff_ne_none.mp hsome)
        exact hparent ▸ List.dropLast_prefix q
  names q hq := by
    rw [Function.update_apply] at hq
    split at hq
    · cases hq
    · exact t.names q hq
  once q r id hq hr := by
    have hold : ∀ {s}, Function.update t.entry p none s = some (.file id) →
        t.entry s = some (.file id) := fun heq => by
      rw [Function.update_apply] at heq
      split at heq
      · cases heq
      · exact heq
    exact t.once q r id (hold hq) (hold hr)
  fresh q id hq := by
    rw [Function.update_apply] at hq
    split at hq
    · cases hq
    · exact t.fresh q id hq

/-- What is at a place after a move. -/
def movedEntry (t : FileTree IsName δ) (src dst q : List α) : Option (Entry α δ) :=
  if dst <+: q then t.entry (src ++ q.drop dst.length) else if src <+: q then none else t.entry q

theorem movedEntry_append (t : FileTree IsName δ) (src dst rest : List α) :
    t.movedEntry src dst (dst ++ rest) = t.entry (src ++ rest) := by
  rw [movedEntry, if_pos (List.prefix_append _ _), List.drop_left]

theorem movedEntry_of_not {q : List α} (hdst : ¬ dst <+: q) (hsrc : ¬ src <+: q) :
    t.movedEntry src dst q = t.entry q := by
  rw [movedEntry, if_neg hdst, if_neg hsrc]

/-- An entry after a move was below the source, or is where it was. -/
theorem movedEntry_cases {q : List α} {e : Entry α δ} (h : t.movedEntry src dst q = some e) :
    (∃ rest, q = dst ++ rest ∧ t.entry (src ++ rest) = some e) ∨
      ¬ dst <+: q ∧ ¬ src <+: q ∧ t.entry q = some e := by
  rw [movedEntry] at h
  split at h
  · rename_i hdst
    obtain ⟨rest, rfl⟩ := hdst
    rw [List.drop_left] at h
    exact .inl ⟨rest, rfl, h⟩
  · rename_i hdst
    split at h
    · cases h
    · exact .inr ⟨hdst, ‹_›, h⟩

theorem CanMove.parent_kept (h : t.CanMove src dst) :
    t.movedEntry src dst dst.dropLast = t.entry dst.dropLast := by
  refine movedEntry_of_not (fun hbelow => ?_) fun hbelow => ?_
  · have hlength := hbelow.length_le
    rw [List.length_dropLast] at hlength
    have := List.length_pos_of_ne_nil h.ne
    omega
  · exact h.apart (hbelow.trans (List.dropLast_prefix dst))

/-- Move a place, with what is below it. -/
def move (t : FileTree IsName δ) (src dst : List α) (h : t.CanMove src dst) :
    FileTree IsName δ where
  entry := t.movedEntry src dst
  places := t.places ++ t.places.map fun q => dst ++ q.drop src.length
  next := t.next
  covers q hq := by
    obtain ⟨e, he⟩ := Option.isSome_iff_exists.mp hq
    rw [List.mem_append, List.mem_map]
    rcases movedEntry_cases he with ⟨rest, rfl, hrest⟩ | ⟨-, -, hold⟩
    · exact .inr ⟨src ++ rest, t.covers _ (by rw [hrest]; rfl), by rw [List.drop_left]⟩
    · exact .inl (t.covers q (by rw [hold]; rfl))
  root := by
    have hsrc : ¬ src <+: [] := fun hbelow => h.apart (by
      rw [List.prefix_nil.mp hbelow]
      exact List.nil_prefix)
    rw [movedEntry_of_not (fun hbelow => h.ne (List.prefix_nil.mp hbelow)) hsrc]
    exact t.root
  parent q hne hq := by
    obtain ⟨e, he⟩ := Option.isSome_iff_exists.mp hq
    rcases movedEntry_cases he with ⟨rest, rfl, hrest⟩ | ⟨hdst, hsrc, hold⟩
    · rcases List.eq_nil_or_concat rest with rfl | ⟨init, name, rfl⟩
      · rw [List.append_nil, h.parent_kept]
        exact isDirectory_iff.mp h.parent
      · rw [List.concat_eq_append, ← List.append_assoc] at hrest ⊢
        rw [List.dropLast_concat, movedEntry_append]
        have hparent := t.parent _ (by simp) (Option.isSome_iff_exists.mpr ⟨e, hrest⟩)
        rwa [List.dropLast_concat] at hparent
    · rw [movedEntry_of_not (fun hbelow => hdst (hbelow.trans (List.dropLast_prefix q)))
        fun hbelow => hsrc (hbelow.trans (List.dropLast_prefix q))]
      exact t.parent q hne (Option.isSome_iff_exists.mpr ⟨e, hold⟩)
  names q hq := by
    obtain ⟨e, he⟩ := Option.isSome_iff_exists.mp hq
    rcases movedEntry_cases he with ⟨rest, rfl, hrest⟩ | ⟨-, -, hold⟩
    · intro name hmem
      rcases List.mem_append.mp hmem with hdst | hmem
      · exact isName_of_parent h.ne h.parent h.name name hdst
      · exact t.names _ (Option.isSome_iff_exists.mpr ⟨e, hrest⟩) name
          (List.mem_append_right _ hmem)
    · exact t.names q (Option.isSome_iff_exists.mpr ⟨e, hold⟩)
  once q r id hq hr := by
    rcases movedEntry_cases hq with ⟨rest, rfl, hrest⟩ | ⟨-, hsrc, hold⟩ <;>
      rcases movedEntry_cases hr with ⟨rest', rfl, hrest'⟩ | ⟨-, hsrc', hold'⟩
    · rw [List.append_cancel_left (t.once _ _ id hrest hrest')]
    · exact absurd ⟨rest, t.once _ _ id hrest hold'⟩ hsrc'
    · exact absurd ⟨rest', t.once _ _ id hrest' hold⟩ hsrc
    · exact t.once q r id hold hold'
  fresh q id hq := by
    rcases movedEntry_cases hq with ⟨rest, rfl, hrest⟩ | ⟨-, -, hold⟩
    · exact t.fresh _ id hrest
    · exact t.fresh q id hold

end

/-! ### What a change leaves alone -/

/-- A change at some places and below them: elsewhere directories stay directories, and a
file that was not there has come to one of them. -/
structure Keeps (t t' : FileTree IsName δ) (changed : List (List α)) : Prop where
  directory : ∀ q, (∀ p ∈ changed, ¬ p <+: q) → t'.isDirectory q = t.isDirectory q
  file : ∀ q id, t'.entry q = some (.file id) →
    t.entry q = some (.file id) ∨ ∃ p ∈ changed, p <+: q

section

variable [DecidableEq α] {t : FileTree IsName δ} {p src dst : List α}

omit [DecidableEq α] in
theorem keeps_refl (t : FileTree IsName δ) : t.Keeps t [] :=
  ⟨fun _ _ => rfl, fun _ _ h => .inl h⟩

omit [DecidableEq α] in
theorem isDirectory_congr {t' : FileTree IsName δ} {q : List α} (h : t'.entry q = t.entry q) :
    t'.isDirectory q = t.isDirectory q := by rw [isDirectory, h, isDirectory]

omit [DecidableEq α] in
/-- A change and another one. -/
theorem Keeps.trans {t' t'' : FileTree IsName δ} {changed changed' : List (List α)}
    (h : t.Keeps t' changed) (h' : t'.Keeps t'' changed') :
    t.Keeps t'' (changed ++ changed') where
  directory q hq := (h'.directory q fun p hp => hq p (List.mem_append_right _ hp)).trans
    (h.directory q fun p hp => hq p (List.mem_append_left _ hp))
  file q id hq := by
    rcases h'.file q id hq with hold | ⟨p, hp, hbelow⟩
    · exact (h.file q id hold).imp_right fun ⟨p, hp, hbelow⟩ =>
        ⟨p, List.mem_append_left _ hp, hbelow⟩
    · exact .inr ⟨p, List.mem_append_right _ hp, hbelow⟩

theorem keeps_add (e : New α δ) (h : t.CanAdd p) : t.Keeps (t.add p e h) [p] where
  directory q hq := isDirectory_congr (Function.update_of_ne
    (fun hqp => hq p List.mem_cons_self (by rw [hqp])) _ _)
  file q id hq := by
    by_cases hqp : q = p
    · exact .inr ⟨p, List.mem_cons_self, hqp ▸ List.prefix_rfl⟩
    · exact .inl ((Function.update_of_ne hqp _ _).symm.trans hq)

theorem keeps_remove (hne : p ≠ []) (h : t.IsEmptyAt p) : t.Keeps (t.remove p hne h) [p] where
  directory q hq := isDirectory_congr (Function.update_of_ne
    (fun hqp => hq p List.mem_cons_self (by rw [hqp])) _ _)
  file q id hq := by
    by_cases hqp : q = p
    · exact .inr ⟨p, List.mem_cons_self, hqp ▸ List.prefix_rfl⟩
    · exact .inl ((Function.update_of_ne hqp _ _).symm.trans hq)

theorem keeps_move (h : t.CanMove src dst) : t.Keeps (t.move src dst h) [src, dst] where
  directory q hq := isDirectory_congr (movedEntry_of_not
    (hq dst (List.mem_cons_of_mem _ List.mem_cons_self)) (hq src List.mem_cons_self))
  file q id hq := by
    rcases movedEntry_cases hq with ⟨rest, rfl, -⟩ | ⟨-, -, hold⟩
    · exact .inr ⟨dst, List.mem_cons_of_mem _ List.mem_cons_self, List.prefix_append _ _⟩
    · exact .inl hold

/-- Trees that differ in the data of directories only. -/
def Alike (t t' : FileTree IsName δ) : Prop :=
  ∀ q, t'.entry q = t.entry q ∨ t.isDirectory q = true ∧ t'.isDirectory q = true

omit [DecidableEq α] in
theorem alike_refl (t : FileTree IsName δ) : t.Alike t := fun _ => .inl rfl

theorem alike_setDirectory (d : δ) (h : t.isDirectory p = true) :
    t.Alike (t.setDirectory p d h) := fun q => by
  by_cases hqp : q = p
  · exact .inr ⟨hqp ▸ h, isDirectory_iff.mpr ⟨d, hqp ▸ Function.update_self _ _ _⟩⟩
  · exact .inl (Function.update_of_ne hqp _ _)

omit [DecidableEq α] in
theorem Alike.trans {t' t'' : FileTree IsName δ} (h : t.Alike t') (h' : t'.Alike t'') :
    t.Alike t'' := fun q => by
  rcases h' q with heq' | ⟨hdirectory, hdirectory'⟩
  · rcases h q with heq | ⟨hdirectory, hdirectory'⟩
    · exact .inl (heq'.trans heq)
    · exact .inr ⟨hdirectory, (isDirectory_congr heq').trans hdirectory'⟩
  · rcases h q with heq | ⟨hdirectory'', -⟩
    · exact .inr ⟨(isDirectory_congr heq).symm.trans hdirectory, hdirectory'⟩
    · exact .inr ⟨hdirectory'', hdirectory'⟩

omit [DecidableEq α] in
theorem Alike.isSome_iff {t' : FileTree IsName δ} (h : t.Alike t') {q : List α} :
    (t'.entry q).isSome ↔ (t.entry q).isSome := by
  rcases h q with heq | ⟨hdirectory, hdirectory'⟩
  · rw [heq]
  · exact iff_of_true (isSome_of_isDirectory hdirectory') (isSome_of_isDirectory hdirectory)

omit [DecidableEq α] in
theorem Alike.keeps {t' : FileTree IsName δ} (h : t.Alike t') : t.Keeps t' [] where
  directory q _ := by
    rcases h q with heq | ⟨hdirectory, hdirectory'⟩
    · exact isDirectory_congr heq
    · rw [hdirectory, hdirectory']
  file q id hq := by
    rcases h q with heq | ⟨-, hdirectory⟩
    · exact .inl (heq.symm.trans hq)
    · obtain ⟨d, hd⟩ := isDirectory_iff.mp hdirectory
      exact absurd (hd.symm.trans hq) (by simp)

end

end FileTree
