import Mathlib.Data.List.TakeWhile
import Sihd.Ssh.PositionalFiles

/-!
# The streams of handles

The server follows the positional files when each of its streams does what was asked for, and
its files settle to theirs.
-/

namespace Sihd.Ssh

open FileTree Sys

namespace World

variable {w : World} {c : Nat → List UInt8}

/-! ### The streams that are closed at the end -/

theorem foldl_flush_withContents (l : List (List UInt8 × File)) (f : Files) :
    (l.foldl (fun files e => e.2.flush files) f).withContents c = f.withContents c := by
  induction l generalizing f with
  | nil => rfl
  | cons e l ih => rw [List.foldl_cons, ih, File.flush, Files.withContents_setContent]

theorem foldl_flush_content {l : List (List UInt8 × File)} {id : Nat}
    (h : ∀ e ∈ l, e.2.file = some id → e.2.stream.pending = []) (f : Files) :
    ((l.foldl (fun files e => e.2.flush files) f).inodes id).content = (f.inodes id).content := by
  induction l generalizing f with
  | nil => rfl
  | cons e l ih =>
    rw [List.forall_mem_cons] at h
    rw [List.foldl_cons, ih h.2, inodes_flush]
    split
    · rename_i hid
      exact FileStream.flushed_of_nil (h.1 hid) 0 _
    · rfl

/-- Each file ends with what settles. -/
theorem onClose_eq (h : ∀ id, w.Settles id (c id)) : w.onClose = w.files.withContents c := by
  have hcontent : ∀ id, (w.onClose.inodes id).content = c id := by
    intro id
    rw [onClose]
    have hsettles := h id
    generalize c id = content at hsettles
    cases hsettles with
    | idle hidle =>
      refine foldl_flush_content (fun e hmem hid => ?_) w.files
      exact hidle e.1 e.2 (OrderedMap.find_eq_some_iff.mpr hmem) hid
    | @waiting handle file hfind hid hothers =>
      obtain ⟨before, after, hentries⟩ :=
        List.append_of_mem (OrderedMap.find_eq_some_iff.mp hfind)
      have hkeys := w.handleToFile.nodup_keys
      rw [hentries, List.map_append, List.map_cons, List.nodup_append, List.nodup_cons] at hkeys
      have hidle : ∀ e ∈ w.handleToFile.entries, e.1 ≠ handle → e.2.file = some id →
          e.2.stream.pending = [] := fun e hmem hne =>
        hothers e.1 e.2 hne (OrderedMap.find_eq_some_iff.mpr hmem)
      rw [hentries, List.foldl_append, List.foldl_cons]
      rw [foldl_flush_content (fun e hmem => ?after), inodes_flush, if_pos hid,
        foldl_flush_content (fun e hmem => ?before)]
      case before =>
        refine hidle e (hentries ▸ List.mem_append_left _ hmem) ?_
        exact hkeys.2.2 e.1 (List.mem_map_of_mem hmem) handle List.mem_cons_self
      case after =>
        refine hidle e (hentries ▸ List.mem_append_right _ (List.mem_cons_of_mem _ hmem)) ?_
        exact fun heq => hkeys.2.1.1 (List.mem_map.mpr ⟨e, hmem, heq⟩)
  calc w.onClose = w.onClose.withContents c := by
        rw [← Files.withContents_self w.onClose]
        exact congrArg w.onClose.withContents (funext hcontent)
    _ = w.files.withContents c := foldl_flush_withContents _ _

/-- A stream that has just been opened has nothing waiting. -/
theorem Settles.set {w' : World} {id : Nat} {content : List UInt8} {name : List UInt8}
    {file : File} (h : w.Settles id content) (hfree : w.handleToFile.find name = none)
    (hpending : file.stream.pending = [])
    (hcontent : (w'.files.inodes id).content = (w.files.inodes id).content)
    (hfind : ∀ name', w'.handleToFile.find name' =
      if name' = name then some file else w.handleToFile.find name') : w'.Settles id content := by
  have hpending' : ∀ name' file', w'.handleToFile.find name' = some file' →
      file'.stream.pending = [] ∨ w.handleToFile.find name' = some file' := by
    intro name' file' hfile'
    rw [hfind] at hfile'
    split at hfile'
    · exact .inl (Option.some.inj hfile' ▸ hpending)
    · exact .inr hfile'
  cases h with
  | idle hidle =>
    rw [← hcontent]
    refine .idle fun name' file' hfile' hid => ?_
    rcases hpending' name' file' hfile' with hnil | hfile
    · exact hnil
    · exact hidle name' file' hfile hid
  | @waiting handle file₁ hfile₁ hid hothers =>
    have hne : handle ≠ name := by
      rintro rfl
      rw [hfree] at hfile₁
      cases hfile₁
    rw [← hcontent]
    refine .waiting ((hfind handle).trans ((if_neg hne).trans hfile₁)) hid
      fun name' file' hne' hfile' hid' => ?_
    rcases hpending' name' file' hfile' with hnil | hfile
    · exact hnil
    · exact hothers name' file' hne' hfile hid'

end World

/-! ### The names of handles -/

theorem handleName_injective {n n' : Nat} (h : handleName n = handleName n') : n = n' := by
  have hdecimal := List.append_cancel_left h
  rw [← digitsValue_decimal n, hdecimal, digitsValue_decimal]

theorem zero_notMem_handleName (n : Nat) : (0 : UInt8) ∉ handleName n := by
  rw [handleName, List.mem_append, not_or]
  refine ⟨by decide, fun hmem => ?_⟩
  exact absurd (isDecimalDigit_of_mem hmem) (by decide)

theorem cString_eq {s : List UInt8} (h : (0 : UInt8) ∉ s) : cString s = s := by
  rw [cString, List.takeWhile_eq_self_iff]
  intro c hc
  simpa using ne_of_mem_of_not_mem hc h

/-! ### The stream of a handle -/

/-- A stream writes when it was asked to, on a file, and reads where it was asked to. -/
structure StandsFor (file : File) (opened : OpenHandle) : Prop where
  sameFile : opened.file = file.file
  writes : file.stream.canWrite = opened.flags.write
  reads : opened.flags.read = true → file.stream.canRead = file.file.isSome
  writable : file.stream.canWrite = true → file.file.isSome

/-- The server follows the positional files: `c` is what the files settle to. -/
structure Follows (w : World) (s : PositionalFiles) (c : Nat → List UInt8) : Prop where
  files : s.files = w.files.withContents c
  settles : ∀ id, w.Settles id (c id)
  rootPath : s.rootPath = w.rootPath
  next : s.next = w.nextHandleId.toNat
  handles : ∀ name, Option.Rel StandsFor (w.handleToFile.find name) (s.handles.find name)
  issued : ∀ name file, w.handleToFile.find name = some file → ∃ n < s.next, name = handleName n
  known : ∀ name file id, w.handleToFile.find name = some file → file.file = some id →
    id < w.files.tree.next

theorem follows_start (files : Files) (rootPath : List UInt8) :
    Follows (.start files rootPath) (.start files rootPath)
      fun id => (files.inodes id).content where
  files := rfl
  settles id := .idle fun _ _ hfind => by cases hfind
  rootPath := rfl
  next := rfl
  handles _ := .none
  issued _ _ hfind := by cases hfind
  known _ _ _ hfind := by cases hfind

/-- No handle is open that a handle names up to a zero. -/
def World.CutsNone (w : World) (handle : Option (List UInt8)) : Prop :=
  ∀ name, handle = some name → (0 : UInt8) ∈ name → w.handleToFile.find (cString name) = none

namespace Follows

variable {w : World} {s : PositionalFiles} {c : Nat → List UInt8}
  {handle : Option (List UInt8)} {name : List UInt8} {file : File}

theorem find_none_iff (h : Follows w s c) :
    w.handleToFile.find name = none ↔ s.handles.find name = none := by
  have hrel := h.handles name
  cases hw : w.handleToFile.find name with
  | none =>
    cases hs : s.handles.find name with
    | none => exact iff_of_true rfl rfl
    | some opened =>
      rw [hw, hs] at hrel
      cases hrel
  | some file =>
    cases hs : s.handles.find name with
    | none =>
      rw [hw, hs] at hrel
      cases hrel
    | some opened => simp

theorem standsFor (h : Follows w s c) (hfind : w.handleToFile.find name = some file) :
    ∃ opened, s.handles.find name = some opened ∧ StandsFor file opened := by
  have hrel := h.handles name
  rw [hfind] at hrel
  generalize s.handles.find name = found at hrel
  cases hrel with
  | some hstands => exact ⟨_, rfl, hstands⟩

/-- The next handle is not open. -/
theorem find_next (h : Follows w s c) : w.handleToFile.find (handleName s.next) = none := by
  cases hfind : w.handleToFile.find (handleName s.next) with
  | none => rfl
  | some file =>
    obtain ⟨n, hlt, hname⟩ := h.issued _ _ hfind
    exact absurd (handleName_injective hname) hlt.ne'

/-- A handle that is cut at a zero finds what it names, or nothing. -/
theorem findFile_eq (h : Follows w s c) (hcut : w.CutsNone handle) :
    w.findFile handle =
      handle.bind fun name => (w.handleToFile.find name).map fun file => (name, file) := by
  cases handle with
  | none => rfl
  | some name =>
    rw [World.findFile, Option.bind_some, Option.bind_some]
    by_cases hzero : (0 : UInt8) ∈ name
    · rw [hcut name rfl hzero]
      cases hfind : w.handleToFile.find name with
      | none => rfl
      | some file =>
        obtain ⟨n, -, rfl⟩ := h.issued _ _ hfind
        exact absurd hzero (zero_notMem_handleName n)
    · rw [cString_eq hzero]

/-- A handle is open in both, or in none. -/
theorem find_cases (h : Follows w s c) (hcut : w.CutsNone handle) :
    (w.findFile handle = none ∧ handle.bind s.handles.find = none) ∨
      ∃ name file opened, handle = some name ∧ w.handleToFile.find name = some file ∧
        s.handles.find name = some opened ∧ StandsFor file opened ∧
        w.findFile handle = some (name, file) := by
  rw [h.findFile_eq hcut]
  cases handle with
  | none => exact .inl ⟨rfl, rfl⟩
  | some name =>
    rw [Option.bind_some, Option.bind_some]
    cases hfind : w.handleToFile.find name with
    | none => exact .inl ⟨rfl, h.find_none_iff.mp hfind⟩
    | some file =>
      obtain ⟨opened, hopened, hstands⟩ := h.standsFor hfind
      exact .inr ⟨name, file, opened, rfl, hfind, hopened, hstands, rfl⟩

/-- What a stream finds in its file once it is flushed. -/
theorem content_flush (h : Follows w s c) {id : Nat}
    (hfind : w.handleToFile.find name = some file) (hid : file.file = some id)
    (hothers : w.OthersIdle name id) : file.content (file.flush w.files) = c id := by
  rw [File.content, hid]
  dsimp only
  rw [World.inodes_flush, if_pos hid]
  exact ((h.settles id).eq_flushed hfind hid hothers).symm

/-- A stream was used, and the contents are `c'`. -/
theorem use (h : Follows w s c) (hfind : w.handleToFile.find name = some file) {files' : Files}
    {file' : File} {c' : Nat → List UInt8}
    (hfiles : files'.withContents c' = w.files.withContents c')
    (hsettles : ∀ id, (w.setFile files' name file').Settles id (c' id))
    (hfile : file'.file = file.file) (hread : file'.stream.canRead = file.stream.canRead)
    (hwrite : file'.stream.canWrite = file.stream.canWrite) :
    Follows (w.setFile files' name file') { s with files := w.files.withContents c' } c' where
  files := hfiles.symm
  settles := hsettles
  rootPath := h.rootPath
  next := h.next
  handles name' := by
    change Option.Rel StandsFor ((w.handleToFile.set name file').find name') _
    rw [OrderedMap.find_set]
    split
    · rename_i hname
      obtain ⟨opened, hopened, hstands⟩ := h.standsFor hfind
      rw [hname, hopened]
      refine .some ⟨?_, ?_, ?_, ?_⟩
      · rw [hfile, hstands.sameFile]
      · rw [hwrite, hstands.writes]
      · rw [hread, hfile]
        exact hstands.reads
      · rw [hwrite, hfile]
        exact hstands.writable
    · exact h.handles name'
  issued name' file₁ hfind' := by
    change (w.handleToFile.set name file').find name' = some file₁ at hfind'
    rw [OrderedMap.find_set] at hfind'
    split at hfind'
    · rename_i hname
      exact hname ▸ h.issued name file hfind
    · exact h.issued name' file₁ hfind'
  known name' file₁ id hfind' hid := by
    change (w.handleToFile.set name file').find name' = some file₁ at hfind'
    have htree := congrArg Files.tree hfiles
    change files'.tree = w.files.tree at htree
    change id < files'.tree.next
    rw [htree]
    rw [OrderedMap.find_set] at hfind'
    split at hfind'
    · rename_i hname
      rw [← Option.some.inj hfind', hfile] at hid
      exact h.known name file id hfind hid
    · exact h.known name' file₁ id hfind' hid

end Follows

end Sihd.Ssh
