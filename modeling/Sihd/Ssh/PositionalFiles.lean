import Sihd.Ssh.SshSubsystemSftp
import Sihd.Sys.FileContents

/-!
# Positional files

What the handles of the server are for. A handle knows its file and what was asked for; bytes
are read and written at their offset, at once. `OPEN` creates a file when it is asked to, and
truncates one when it is asked to and to write. A request on a handle that is not open is
refused, and changes nothing.
-/

namespace Sihd.Ssh

open FileTree Sys

structure OpenHandle where
  file : Option Nat
  flags : OpenFlags
  deriving DecidableEq

/-- The files, the handles that are open, and the number of the next. -/
structure PositionalFiles where
  files : Files
  rootPath : List UInt8
  next : Nat
  handles : OrderedMap (List UInt8) OpenHandle

/-- An inode with the attributes that are given. -/
def setAttributes (attrs : SftpAttributes) (inode : Inode) : Inode where
  content :=
    match attrs.size with
    | none => inode.content
    | some size => Files.resize inode.content size.toNat
  attr :=
    { permissions := (attrs.permissions.map (· &&& 0o7777#32)).getD inode.attr.permissions
      uid := (attrs.uidgid.map Prod.fst).getD inode.attr.uid
      gid := (attrs.uidgid.map Prod.snd).getD inode.attr.gid }

namespace PositionalFiles

def start (files : Files) (rootPath : List UInt8) : PositionalFiles where
  files := files
  rootPath := setRootPath rootPath
  next := 1
  handles := .empty

def openFile (s : PositionalFiles) (path : List UInt8) (flags : OpenFlags)
    (attrs : Option SftpAttributes) : PositionalFiles × Reply :=
  let resolved := Path.jail s.files.realpath s.rootPath path
  match s.files.openFile resolved flags.write flags.creat (flags.write && flags.trunc) with
  | .error errno => (s, .status (if errno = .noEntry then .noSuchFile else .permissionDenied) "")
  | .ok (files, _, file) =>
      let asked := if flags.creat then attrs.bind SftpAttributes.permissions else none
      let files := ((whenAsked files asked (files.chmod resolved)).toOption.getD (files, [])).1
      let handle := handleName s.next
      ({ s with
        files := files
        next := s.next + 1
        handles := s.handles.set handle ⟨file, flags⟩ }, .handle handle)

def read (s : PositionalFiles) (handle : Option (List UInt8)) (offset len : Nat) : Reply :=
  match handle.bind s.handles.find with
  | none => .status .invalidHandle ""
  | some ⟨file, flags⟩ =>
      match (if flags.read then file else none) with
      | none => .status .failure ""
      | some id =>
          match ((s.files.inodes id).content.drop offset).take len with
          | [] => .status .eof ""
          | buf => .data buf buf.length

def write (s : PositionalFiles) (handle : Option (List UInt8)) (offset : Nat)
    (data : Option (List UInt8)) : PositionalFiles × Reply :=
  match handle.bind s.handles.find with
  | none => (s, .status .invalidHandle "")
  | some ⟨file, flags⟩ =>
      match data with
      | none => (s, .status .badMessage "No data in write request")
      | some data =>
          match (if flags.write then file else none) with
          | none => (s, .status .failure "")
          | some id =>
              let inode := s.files.inodes id
              let content := if flags.append then inode.content ++ data
                else FileStream.splice 0 inode.content offset data
              ({ s with files := s.files.setInode id { inode with content := content } },
                .status .ok "")

/-- A size is a signed number. -/
def fsetstat (s : PositionalFiles) (handle : Option (List UInt8))
    (attrs : Option SftpAttributes) : PositionalFiles × Reply :=
  match handle.bind s.handles.find, attrs with
  | none, _ => (s, .status .invalidHandle "")
  | some _, none => (s, .status .badMessage "")
  | some ⟨none, _⟩, some _ => (s, .status .failure "")
  | some ⟨some id, _⟩, some attrs =>
      if (attrs.size.map fun size => decide (size.toInt < 0)) = some true then
        (s, .status .permissionDenied "")
      else
        ({ s with files := s.files.setInode id (setAttributes attrs (s.files.inodes id)) },
          .status .ok "")

def close (s : PositionalFiles) (handle : Option (List UInt8)) : PositionalFiles × Reply :=
  match handle with
  | none => (s, .status .invalidHandle "")
  | some handle =>
      if (s.handles.find handle).isSome then
        ({ s with handles := s.handles.erase handle }, .status .ok "")
      else (s, .status .invalidHandle "")

def handle (s : PositionalFiles) : FileRequest → PositionalFiles × Reply
  | .open path flags attrs => s.openFile path flags attrs
  | .read handle offset len _ _ => (s, s.read handle offset len)
  | .write handle offset data _ => s.write handle offset data
  | .fsetstat handle attrs => s.fsetstat handle attrs
  | .close handle => s.close handle

end PositionalFiles

namespace World

/-- No bytes wait for a file in another stream. -/
def OthersIdle (w : World) (handle : List UInt8) (id : Nat) : Prop :=
  ∀ handle' file, handle' ≠ handle → w.handleToFile.find handle' = some file →
    file.file = some id → file.stream.pending = []

/-- No bytes wait for a file. -/
def Idle (w : World) (id : Nat) : Prop :=
  ∀ handle file, w.handleToFile.find handle = some file → file.file = some id →
    file.stream.pending = []

/-- The content of a file once no bytes wait for it, which they do in one stream at most. -/
inductive Settles (w : World) (id : Nat) : List UInt8 → Prop
  | idle (h : w.Idle id) : Settles w id (w.files.inodes id).content
  | waiting {handle : List UInt8} {file : File}
      (hfind : w.handleToFile.find handle = some file) (hid : file.file = some id)
      (hothers : w.OthersIdle handle id) :
      Settles w id (file.stream.flushed 0 (w.files.inodes id).content)

variable {w w' : World} {handle : List UInt8} {file : File} {id : Nat} {content : List UInt8}

/-- What settles is what a stream makes it when the others have nothing waiting. -/
theorem Settles.eq_flushed (h : w.Settles id content)
    (hfind : w.handleToFile.find handle = some file) (hid : file.file = some id)
    (hothers : w.OthersIdle handle id) :
    content = file.stream.flushed 0 (w.files.inodes id).content := by
  cases h with
  | idle hidle => rw [FileStream.flushed_of_nil (hidle handle file hfind hid)]
  | @waiting handle' file' hfind' hid' hothers' =>
    by_cases hhandle : handle' = handle
    · rw [hhandle] at hfind'
      rw [Option.some.inj (hfind'.symm.trans hfind)]
    · rw [FileStream.flushed_of_nil (hothers handle' file' hhandle hfind' hid'),
        FileStream.flushed_of_nil (hothers' handle file (Ne.symm hhandle) hfind hid)]

/-- The streams on a file and its content decide how it settles. -/
theorem Settles.congr (h : w.Settles id content)
    (hcontent : (w'.files.inodes id).content = (w.files.inodes id).content)
    (hfind : ∀ handle file, file.file = some id →
      (w'.handleToFile.find handle = some file ↔ w.handleToFile.find handle = some file)) :
    w'.Settles id content := by
  cases h with
  | idle hidle =>
    rw [← hcontent]
    exact .idle fun handle file hfile hid => hidle handle file ((hfind handle file hid).mp hfile) hid
  | @waiting handle file hfile hid hothers =>
    rw [← hcontent]
    refine .waiting ((hfind handle file hid).mpr hfile) hid fun handle' file' hne hfile' hid' => ?_
    exact hothers handle' file' hne ((hfind handle' file' hid').mp hfile') hid'

theorem inodes_flush (file : File) (f : Files) (id : Nat) :
    ((file.flush f).inodes id).content =
      if file.file = some id then file.stream.flushed 0 (f.inodes id).content
      else (f.inodes id).content := by
  rw [File.flush, File.setContent, File.content]
  cases hfile : file.file with
  | none => rfl
  | some id' =>
    dsimp only
    rw [Files.inodes_setInode]
    by_cases hid : id = id'
    · rw [if_pos hid, hid, if_pos rfl]
    · rw [if_neg hid, if_neg fun heq => hid (Option.some.inj heq).symm]

/-- A stream that is flushed, and then has nothing waiting or is closed, leaves what settles
as it was. -/
theorem Settles.flush (h : w.Settles id content) (hfind : w.handleToFile.find handle = some file)
    (hfiles : w'.files = file.flush w.files)
    (hself : ∀ file', w'.handleToFile.find handle = some file' →
      file'.file = file.file ∧ file'.stream.pending = [])
    (hothers : ∀ handle', handle' ≠ handle →
      w'.handleToFile.find handle' = w.handleToFile.find handle') : w'.Settles id content := by
  have hcontent : (w'.files.inodes id).content =
      if file.file = some id then file.stream.flushed 0 (w.files.inodes id).content
      else (w.files.inodes id).content := by rw [hfiles, inodes_flush]
  by_cases hid : file.file = some id
  · rw [if_pos hid] at hcontent
    cases h with
    | idle hidle =>
      rw [FileStream.flushed_of_nil (hidle handle file hfind hid)] at hcontent
      rw [← hcontent]
      refine .idle fun handle' file' hfind' hid' => ?_
      by_cases hhandle : handle' = handle
      · exact (hself file' (hhandle ▸ hfind')).2
      · exact hidle handle' file' (hothers handle' hhandle ▸ hfind') hid'
    | @waiting handle₁ file₁ hfind₁ hid₁ hothers₁ =>
      by_cases hhandle₁ : handle₁ = handle
      · rw [hhandle₁] at hfind₁ hothers₁
        rw [Option.some.inj (hfind₁.symm.trans hfind), ← hcontent]
        refine .idle fun handle' file' hfind' hid' => ?_
        by_cases hhandle : handle' = handle
        · exact (hself file' (hhandle ▸ hfind')).2
        · exact hothers₁ handle' file' hhandle (hothers handle' hhandle ▸ hfind') hid'
      · rw [FileStream.flushed_of_nil (hothers₁ handle file (Ne.symm hhandle₁) hfind hid)]
          at hcontent
        rw [← hcontent]
        refine .waiting ((hothers handle₁ hhandle₁).trans hfind₁) hid₁
          fun handle' file' hne hfind' hid' => ?_
        by_cases hhandle : handle' = handle
        · exact (hself file' (hhandle ▸ hfind')).2
        · exact hothers₁ handle' file' hne (hothers handle' hhandle ▸ hfind') hid'
  · rw [if_neg hid] at hcontent
    refine h.congr hcontent fun handle' file' hid' => ?_
    by_cases hhandle : handle' = handle
    · rw [hhandle]
      refine iff_of_false (fun hfind' => ?_) fun hfind' => ?_
      · exact hid ((hself file' hfind').1.symm.trans hid')
      · exact hid (Option.some.inj (hfind.symm.trans hfind') ▸ hid')
    · rw [hothers handle' hhandle]

end World

end Sihd.Ssh
