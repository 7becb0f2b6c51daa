import Sihd.Lib.Transition
import Sihd.Ssh.PositionalStreams

/-!
# Runs of the server and of the positional files

A request is positional when the mode of its stream does what was asked for, no bytes wait in
another stream for its file, and the stream has no error and keeps no bytes that the file does
not have. Runs of such requests have the same replies and end with the same files.
-/

namespace Sihd.Ssh

open FileTree Sys

/-! ### Reads -/

namespace World

/-- A stream that can read gets what its file has at the offset. -/
structure ReadsFile (w : World) (name : List UInt8) (file : File) (id offset len : Nat)
    (keep : Bool) : Prop where
  error : file.stream.error = false
  others : w.OthersIdle name id
  kept : (file.stream.seek offset keep).block.drop (offset - file.stream.blockStart) <+:
    (file.content (file.flush w.files)).drop offset
  length : (((file.content (file.flush w.files)).drop offset).take len).length < 2 ^ 31

def ReadIsPositional (w : World) (s : PositionalFiles) (handle : Option (List UInt8))
    (offset len : Nat) (keep : Bool) : Prop :=
  w.CutsNone handle ∧ ∀ name file opened, handle = some name →
    w.handleToFile.find name = some file → s.handles.find name = some opened →
      file.stream.canRead = (opened.flags.read && opened.file.isSome) ∧
        if file.stream.canRead then
          ∀ id, file.file = some id → w.ReadsFile name file id offset len keep
        else len ≠ 0 ∨ file.stream.error = true

end World

namespace Follows

variable {w : World} {s : PositionalFiles} {c : Nat → List UInt8}
  {handle : Option (List UInt8)} {name : List UInt8} {file : File} {opened : OpenHandle}
  {offset : Nat}

/-- A stream that was flushed and has nothing waiting. -/
theorem useFlushed (h : Follows w s c) (hfind : w.handleToFile.find name = some file)
    {stream : FileStream UInt8} (hread : stream.canRead = file.stream.canRead)
    (hwrite : stream.canWrite = file.stream.canWrite) (hpending : stream.pending = []) :
    Follows (w.setFile (file.flush w.files) name ⟨file.file, stream⟩) s c := by
  have hsettles : ∀ id, (w.setFile (file.flush w.files) name ⟨file.file, stream⟩).Settles id
      (c id) := by
    intro id
    refine (h.settles id).flush hfind rfl (fun file' hfind' => ?_) fun name' hne => ?_
    · change (w.handleToFile.set name _).find name = some file' at hfind'
      rw [OrderedMap.find_set_self, Option.some.injEq] at hfind'
      rw [← hfind']
      exact ⟨rfl, hpending⟩
    · exact OrderedMap.find_set_of_ne _ hne _
  have huse := h.use hfind (Files.withContents_setContent file w.files _) hsettles rfl hread hwrite
  rwa [← h.files] at huse

theorem toInt_ofNat {n : Nat} (h : n < 2 ^ 31) : (BitVec.ofNat 32 n).toInt = n := by
  have hmod : n % 2 ^ 32 = n := Nat.mod_eq_of_lt (by omega)
  rw [BitVec.toInt_eq_toNat_cond, BitVec.toNat_ofNat, hmod, if_pos (by omega)]

/-- The reply of a stream that can read. -/
theorem read_reply (h : Follows w s c) (hfind : w.handleToFile.find name = some file) {id : Nat}
    (hid : file.file = some id) (hread : file.stream.canRead = true) {len : Nat} {keep : Bool}
    (hreads : w.ReadsFile name file id offset len keep) (ahead : Nat) :
    ((file.stream.seek offset keep).read (file.content (file.flush w.files)) len ahead).1.error =
        false ∧
      ((file.stream.seek offset keep).read (file.content (file.flush w.files)) len ahead).2 =
        ((c id).drop offset).take len ∧ (((c id).drop offset).take len).length < 2 ^ 31 := by
  have hcontent := h.content_flush hfind hid hreads.others
  refine ⟨?_, ?_, hcontent ▸ hreads.length⟩
  · rw [FileStream.error_read]
    change (file.stream.error || (!file.stream.canRead && _)) = false
    rw [hreads.error, hread]
    rfl
  · rw [FileStream.read_eq (s := file.stream.seek offset keep) hread len ahead hreads.kept,
      hcontent]
    rfl

theorem read (h : Follows w s c) {len : Nat} {keep : Bool} (hoffset : offset < 2 ^ 63)
    (hread : w.ReadIsPositional s handle offset len keep) (ahead : Nat) :
    (w.handleRead handle offset len keep ahead).2.1 = s.read handle offset len ∧
      Follows (w.handleRead handle offset len keep ahead).1 s c := by
  obtain ⟨hcut, hread⟩ := hread
  rw [World.handleRead, PositionalFiles.read]
  rcases h.find_cases hcut with ⟨hnone, hnone'⟩ | ⟨name, file, opened, rfl, hfind, hopened,
    hstands, hfile⟩
  · rw [hnone, hnone']
    exact ⟨rfl, h⟩
  · obtain ⟨hcan, hread⟩ := hread name file opened rfl hfind hopened
    rw [hfile, Option.bind_some, hopened]
    dsimp only
    rw [File.seekBegin, if_neg (by omega)]
    dsimp only
    rw [File.read_eq rfl, File.content_mk]
    obtain ⟨hsame, hsame', -, hpending⟩ := (file.stream.seek offset keep).read_same
      (file.content (file.flush w.files)) len ahead
    refine ⟨?_, h.useFlushed hfind hsame hsame' hpending⟩
    dsimp only
    split at hread
    · rename_i hcanRead
      rw [hcanRead, eq_comm, Bool.and_eq_true] at hcan
      obtain ⟨id, hid⟩ := Option.isSome_iff_exists.mp hcan.2
      have hid' : file.file = some id := hstands.sameFile ▸ hid
      obtain ⟨herror, hbuf, hlength⟩ := h.read_reply hfind hid' hcanRead (hread id hid') ahead
      rw [herror, if_neg Bool.false_ne_true, if_pos hcan.1, hid, hbuf]
      have hinode : (s.files.inodes id).content = c id := by rw [h.files]; rfl
      dsimp only
      rw [hinode]
      generalize ((c id).drop offset).take len = buf at hlength
      cases buf with
      | nil => rfl
      | cons b buf =>
        dsimp only
        rw [toInt_ofNat hlength]
    · rename_i hcanRead
      rw [Bool.not_eq_true] at hcanRead
      have herror : ((file.stream.seek offset keep).read (file.content (file.flush w.files)) len
          ahead).1.error = true := by
        rw [FileStream.error_read]
        change (file.stream.error || (!file.stream.canRead && decide (len ≠ 0))) = true
        rw [hcanRead]
        rcases hread with hlen | herror
        · simp [hlen]
        · simp [herror]
      rw [herror, if_pos rfl]
      rw [hcanRead, eq_comm, Bool.and_eq_false_iff] at hcan
      rcases hcan with hflag | hnone
      · rw [hflag, if_neg Bool.false_ne_true]
      · rw [Option.isSome_eq_false_iff, Option.isNone_iff_eq_none] at hnone
        rw [hnone, ite_self]

end Follows

/-! ### Writes -/

/-- A stream that was asked to write puts the bytes where they are asked to be. -/
structure World.WritesFile (w : World) (name : List UInt8) (file : File) (flags : OpenFlags)
    (id offset : Nat) (data : List UInt8) : Prop where
  error : file.stream.error = false
  others : w.OthersIdle name id
  append : file.stream.append = flags.append ∨
    offset = (file.content (file.flush w.files)).length ∨ data = []

def World.WriteIsPositional (w : World) (s : PositionalFiles) (handle : Option (List UInt8))
    (offset : Nat) (data : Option (List UInt8)) : Prop :=
  w.CutsNone handle ∧ ∀ name file opened data', handle = some name →
    w.handleToFile.find name = some file → s.handles.find name = some opened →
      data = some data' →
        if opened.flags.write then
          ∀ id, opened.file = some id → w.WritesFile name file opened.flags id offset data'
        else data' ≠ [] ∨ file.stream.error = true

/-- What a stream that is found does with the bytes. -/
theorem World.handleWrite_eq {w : World} {handle : Option (List UInt8)} {name : List UInt8}
    {file : File} {offset : Nat} (hfile : w.findFile handle = some (name, file))
    (hoffset : offset < 2 ^ 63) {content : List UInt8}
    (hcontent : file.content (file.flush w.files) = content) (data : List UInt8) (wait : Nat) :
    (w.handleWrite handle offset (some data) wait).2.1 =
        (if (if ((file.stream.seek offset false).write 0 content data wait).1.error = true then none
          else some ((file.stream.seek offset false).write 0 content data wait).2.2) =
            some data.length then .status .ok "" else .status .failure "") ∧
      (w.handleWrite handle offset (some data) wait).1 =
        w.setFile (file.setContent (file.flush w.files)
          ((file.stream.seek offset false).write 0 content data wait).2.1) name
          ⟨file.file, ((file.stream.seek offset false).write 0 content data wait).1⟩ := by
  rw [World.handleWrite, hfile]
  dsimp only
  rw [File.seekBegin, if_neg (by omega)]
  dsimp only
  rw [File.write_eq, File.content_mk, File.setContent_mk, hcontent]
  exact ⟨rfl, rfl⟩

namespace Follows

variable {w : World} {s : PositionalFiles} {c : Nat → List UInt8}
  {handle : Option (List UInt8)} {name : List UInt8} {file : File} {opened : OpenHandle}
  {offset : Nat}

/-- Bytes are put at an offset, or at the end. -/
theorem put_eq {stream : FileStream UInt8} {flags : OpenFlags} {content data : List UInt8}
    (h : stream.append = flags.append ∨ offset = content.length ∨ data = []) :
    stream.put 0 content offset data =
      if flags.append then content ++ data else FileStream.splice 0 content offset data := by
  rcases h with happend | rfl | rfl
  · rw [FileStream.put, happend]
  · rw [FileStream.put, FileStream.splice_length, ite_self, ite_self]
  · rw [FileStream.put_nil, FileStream.splice_nil, List.append_nil, ite_self]

/-- What a file settles to once a stream has written. -/
theorem settles_write (h : Follows w s c) (hfind : w.handleToFile.find name = some file) {id : Nat}
    (hid : file.file = some id) (hothers : w.OthersIdle name id)
    (hwrite : file.stream.canWrite = true) (data : List UInt8) (wait : Nat) {files : Files}
    {stream : FileStream UInt8}
    (hfiles : files = file.setContent (file.flush w.files)
      ((file.stream.seek offset false).write 0 (c id) data wait).2.1)
    (hstream : stream = ((file.stream.seek offset false).write 0 (c id) data wait).1) (id' : Nat) :
    (w.setFile files name ⟨file.file, stream⟩).Settles id'
      (Function.update c id (file.stream.put 0 (c id) offset data) id') := by
  have hfind' : ∀ name', (w.setFile files name ⟨file.file, stream⟩).handleToFile.find name' =
      if name' = name then some ⟨file.file, stream⟩ else w.handleToFile.find name' := by
    intro name'
    change (w.handleToFile.set name _).find name' = _
    rw [OrderedMap.find_set]
    congr
  have hcontent : ∀ id', (files.inodes id').content =
      if id' = id then ((file.stream.seek offset false).write 0 (c id) data wait).2.1
      else (w.files.inodes id').content := by
    intro id'
    rw [hfiles, File.setContent, hid]
    dsimp only
    rw [Files.inodes_setInode]
    split
    · rfl
    · rename_i hne
      rw [World.inodes_flush, if_neg]
      rw [hid]
      exact fun heq => hne (Option.some.inj heq).symm
  by_cases heq : id' = id
  · -- the bytes wait in the stream, or are in the file
    subst heq
    rw [Function.update_self]
    have hflushed : stream.flushed 0 (files.inodes id').content =
        file.stream.put 0 (c id') offset data := by
      rw [hcontent, if_pos rfl, hstream]
      by_cases hdata : data = []
      · rw [hdata, FileStream.put_nil, FileStream.write, if_pos rfl]
        exact FileStream.flushed_of_nil rfl 0 _
      · exact FileStream.flushed_write (s := file.stream.seek offset false) hwrite hdata wait
    rw [← hflushed]
    have hself := (hfind' name).trans (if_pos rfl)
    refine .waiting hself hid fun name' file' hne hfile' hid' => ?_
    rw [hfind', if_neg hne] at hfile'
    exact hothers name' file' hne hfile' hid'
  · rw [Function.update_of_ne heq]
    refine (h.settles id').congr ((hcontent id').trans (if_neg heq)) fun name' file' hid' => ?_
    rw [hfind']
    split
    · rename_i hname
      rw [hname]
      refine iff_of_false (fun hsome => ?_) fun hsome => ?_
      · rw [← Option.some.inj hsome] at hid'
        exact heq (Option.some.inj (hid'.symm.trans hid))
      · rw [← Option.some.inj (hfind.symm.trans hsome)] at hid'
        exact heq (Option.some.inj (hid'.symm.trans hid))
    · exact Iff.rfl

/-- A stream that was asked to write has written. -/
theorem write_asked (h : Follows w s c) {data : List UInt8}
    (hfind : w.handleToFile.find name = some file)
    (hfile : w.findFile handle = some (name, file)) {id : Nat} (hid : file.file = some id)
    (hcan : file.stream.canWrite = true) (hoffset : offset < 2 ^ 63) {flags : OpenFlags}
    (hwrites : w.WritesFile name file flags id offset data) (wait : Nat) :
    (w.handleWrite handle offset (some data) wait).2.1 = .status .ok "" ∧
      Follows (w.handleWrite handle offset (some data) wait).1
        { s with files := w.files.withContents (Function.update c id
          (if flags.append then c id ++ data else FileStream.splice 0 (c id) offset data)) }
        (Function.update c id
          (if flags.append then c id ++ data else FileStream.splice 0 (c id) offset data)) := by
  have hcontent := h.content_flush hfind hid hwrites.others
  have hput := hwrites.append
  rw [hcontent] at hput
  obtain ⟨hreply, hworld⟩ := World.handleWrite_eq hfile hoffset hcontent data wait
  obtain ⟨hsame, hsame', -⟩ :=
    (file.stream.seek offset false).write_same 0 (c id) data wait
  have herror := (file.stream.seek offset false).error_write 0 (c id) data wait
  have hlength := FileStream.length_write (s := file.stream.seek offset false) hcan 0 (c id) data wait
  change _ = (file.stream.error || (!file.stream.canWrite && _)) at herror
  rw [hwrites.error, hcan, Bool.false_or, Bool.not_true, Bool.false_and] at herror
  rw [hreply, hworld]
  refine ⟨by rw [herror, if_neg Bool.false_ne_true, if_pos (congrArg some hlength)], ?_⟩
  rw [← put_eq hput]
  refine h.use hfind ?_ (h.settles_write hfind hid hwrites.others hcan data wait rfl rfl) rfl hsame
    hsame'
  rw [Files.withContents_setContent, File.flush, Files.withContents_setContent]

/-- A stream that was not asked to write refuses to. -/
theorem write_refused (h : Follows w s c) {data : List UInt8}
    (hfind : w.handleToFile.find name = some file)
    (hfile : w.findFile handle = some (name, file)) (hcan : file.stream.canWrite = false)
    (hoffset : offset < 2 ^ 63) (hwrites : data ≠ [] ∨ file.stream.error = true) (wait : Nat) :
    (w.handleWrite handle offset (some data) wait).2.1 = .status .failure "" ∧
      Follows (w.handleWrite handle offset (some data) wait).1 s c := by
  obtain ⟨hreply, hworld⟩ := World.handleWrite_eq hfile hoffset rfl data wait
  rw [hreply, hworld]
  obtain ⟨hsame, hsame', -⟩ := (file.stream.seek offset false).write_same 0
    (file.content (file.flush w.files)) data wait
  have herror := (file.stream.seek offset false).error_write 0
    (file.content (file.flush w.files)) data wait
  change _ = (file.stream.error || (!file.stream.canWrite && decide (data ≠ []))) at herror
  have herror' : (file.stream.error || (!file.stream.canWrite && decide (data ≠ []))) = true := by
    rcases hwrites with hdata | hsticky
    · simp [hcan, hdata]
    · simp [hsticky]
  obtain ⟨hkept, hpending⟩ := FileStream.write_of_not_canWrite
    (s := file.stream.seek offset false) hcan 0 (file.content (file.flush w.files)) data wait
  refine ⟨by rw [herror, herror', if_pos rfl, if_neg (Option.some_ne_none _).symm], ?_⟩
  rw [hkept, File.setContent_content]
  exact h.useFlushed hfind hsame hsame' hpending

theorem write (h : Follows w s c) {data : Option (List UInt8)} (hoffset : offset < 2 ^ 63)
    (hwrite : w.WriteIsPositional s handle offset data) (wait : Nat) :
    (w.handleWrite handle offset data wait).2.1 = (s.write handle offset data).2 ∧
      ∃ c', Follows (w.handleWrite handle offset data wait).1 (s.write handle offset data).1 c' := by
  obtain ⟨hcut, hwrite⟩ := hwrite
  rcases h.find_cases hcut with ⟨hnone, hnone'⟩ | ⟨name, file, opened, rfl, hfind, hopened,
    hstands, hfile⟩
  · rw [World.handleWrite, PositionalFiles.write, hnone, hnone']
    exact ⟨rfl, c, h⟩
  cases data with
  | none =>
    rw [World.handleWrite, PositionalFiles.write, hfile, Option.bind_some, hopened]
    exact ⟨rfl, c, h⟩
  | some data =>
    have hwrite := hwrite name file opened data rfl hfind hopened rfl
    rw [PositionalFiles.write, Option.bind_some, hopened]
    dsimp only
    split at hwrite
    · rename_i hflag
      have hcan : file.stream.canWrite = true := hstands.writes.trans hflag
      obtain ⟨id, hid⟩ := Option.isSome_iff_exists.mp (hstands.writable hcan)
      have hid' : opened.file = some id := hstands.sameFile.trans hid
      rw [if_pos hflag, hid']
      dsimp only
      obtain ⟨hreply, hfollows⟩ :=
        h.write_asked hfind hfile hid hcan hoffset (hwrite id hid') wait
      have hinode : (s.files.inodes id).content = c id := by rw [h.files]; rfl
      rw [← Files.withContents_setInode, ← h.files, ← hinode] at hfollows
      exact ⟨hreply, _, hfollows⟩
    · rename_i hflag
      have hcan : file.stream.canWrite = false := by
        rw [hstands.writes]
        exact Bool.eq_false_iff.mpr hflag
      obtain ⟨hreply, hfollows⟩ := h.write_refused hfind hfile hcan hoffset hwrite wait
      rw [if_neg hflag]
      exact ⟨hreply, c, hfollows⟩

end Follows

/-! ### Opening and closing -/

/-- The mode of the stream creates and truncates what was asked for, and no bytes wait for a
file that is truncated. The numbers of handles are not used up. -/
def World.OpenIsPositional (w : World) (path : List UInt8) (flags : OpenFlags) : Prop :=
  w.nextHandleId.toNat + 1 < 2 ^ 64 ∧
    ∀ p, w.files.lookup true (w.resolvePath path) = .ok p →
      (w.files.tree.entry p = none → (openMode flags).creates = flags.creat) ∧
      ∀ id, w.files.tree.entry p = some (.file id) →
        ((openMode flags).truncates ≠ (flags.write && flags.trunc) →
          (w.files.inodes id).content = []) ∧
        (flags.write = true → flags.trunc = true → w.Idle id)

theorem openMode_writes (flags : OpenFlags) : (openMode flags).writes = flags.write := by
  rcases flags with ⟨read, write, append, trunc, creat⟩
  revert read write append trunc creat
  decide

theorem openMode_reads {flags : OpenFlags} (h : flags.read = true) :
    (openMode flags).reads = true := by
  rcases flags with ⟨read, write, append, trunc, creat⟩
  obtain rfl : read = true := h
  revert write append trunc creat
  decide

/-- The permissions that are asked for are set beside the contents. -/
theorem chmodAsked_withContents (f : Files) (c : Nat → List UInt8) (path : List UInt8)
    (asked : Option (BitVec 32)) :
    ((whenAsked (f.withContents c) asked ((f.withContents c).chmod path)).toOption.getD
        (f.withContents c, [])).1 =
      ((whenAsked f asked (f.chmod path)).toOption.getD (f, [])).1.withContents c := by
  cases asked with
  | none => rfl
  | some mode =>
    rw [whenAsked, whenAsked, Files.chmod, Files.chmod, Files.setAttr_withContents]
    cases f.setAttr path _ with
    | error errno => rfl
    | ok r => rfl

theorem chmodAsked_same (f : Files) (path : List UInt8) (asked : Option (BitVec 32)) :
    (∀ id, (((whenAsked f asked (f.chmod path)).toOption.getD (f, [])).1.inodes id).content =
        (f.inodes id).content) ∧
      ((whenAsked f asked (f.chmod path)).toOption.getD (f, [])).1.tree.next = f.tree.next := by
  cases asked with
  | none => exact ⟨fun _ => rfl, rfl⟩
  | some mode =>
    rw [whenAsked]
    cases hchmod : f.chmod path mode with
    | error errno => exact ⟨fun _ => rfl, rfl⟩
    | ok r =>
      obtain ⟨p, hsets⟩ := Files.setAttr_ok hchmod
      exact ⟨Files.content_setAttr hchmod, hsets.next⟩

/-- The permissions that `OPEN` asks for, where it creates. -/
def askedPermissions (flags : OpenFlags) (attrs : Option SftpAttributes) : Option (BitVec 32) :=
  if flags.creat then attrs.bind SftpAttributes.permissions else none

theorem World.handleOpen_ok {w : World} {path : List UInt8} {flags : OpenFlags}
    {f' : Files} {touched : List Touch} {file : File}
    (hopen : File.openFile w.files (w.resolvePath path) (openMode flags) = .ok (f', touched, file))
    (hfree : w.handleToFile.find (handleName w.nextHandleId.toNat) = none)
    (attrs : Option SftpAttributes) :
    (w.handleOpen path flags attrs).2.1 = .handle (handleName w.nextHandleId.toNat) ∧
      (w.handleOpen path flags attrs).1 = { w with
        files := ((whenAsked f' (askedPermissions flags attrs)
          (f'.chmod (w.resolvePath path))).toOption.getD (f', [])).1
        nextHandleId := w.nextHandleId + 1
        handleToFile := w.handleToFile.set (handleName w.nextHandleId.toNat) file } := by
  rw [World.handleOpen]
  dsimp only
  rw [hopen]
  dsimp only
  rw [hfree]
  exact ⟨rfl, rfl⟩

namespace Follows

variable {w : World} {s : PositionalFiles} {c : Nat → List UInt8} {path : List UInt8}
  {flags : OpenFlags}

/-- Both open the file, or it cannot be opened. -/
theorem open_cases (h : Follows w s c) (hopen : w.OpenIsPositional path flags) :
    (∃ errno, File.openFile w.files (w.resolvePath path) (openMode flags) = .error errno ∧
      s.files.openFile (w.resolvePath path) flags.write flags.creat (flags.write && flags.trunc) =
        .error errno) ∨
      ∃ f' touched touched' file,
        File.openFile w.files (w.resolvePath path) (openMode flags) = .ok (f', touched,
          ⟨file, .create ((openMode flags).reads && file.isSome) flags.write
            (openMode flags).appends⟩) ∧
        s.files.openFile (w.resolvePath path) flags.write flags.creat
          (flags.write && flags.trunc) =
            .ok (f'.withContents (Files.opened c touched' file), touched', file) ∧
        w.files.openFile (w.resolvePath path) flags.write flags.creat
          (flags.write && flags.trunc) = .ok (f', touched', file) := by
  have hcongr := Files.openFile_congr w.files (w.resolvePath path) flags.write
    (openMode flags).creates flags.creat (openMode flags).truncates (flags.write && flags.trunc)
    (fun p hp hfree => (hopen.2 p hp).1 hfree)
    (fun p id hp hentry hne => ((hopen.2 p hp).2 id hentry).1 hne)
  rw [h.files, Files.openFile_withContents, File.openFile, openMode_writes]
  cases hcode : w.files.openFile (w.resolvePath path) flags.write (openMode flags).creates
      (openMode flags).truncates with
  | error errno =>
    rw [hcode] at hcongr
    cases hasked : w.files.openFile (w.resolvePath path) flags.write flags.creat
        (flags.write && flags.trunc) with
    | error errno' =>
      rw [hasked] at hcongr
      cases hcongr
      exact .inl ⟨errno, rfl, rfl⟩
    | ok r =>
      rw [hasked] at hcongr
      cases hcongr
  | ok r =>
    rw [hcode] at hcongr
    cases hasked : w.files.openFile (w.resolvePath path) flags.write flags.creat
        (flags.write && flags.trunc) with
    | error errno =>
      rw [hasked] at hcongr
      cases hcongr
    | ok r' =>
      obtain ⟨f₁, touched, file⟩ := r
      obtain ⟨f₂, touched', file'⟩ := r'
      rw [hasked] at hcongr
      cases hcongr
      exact .inr ⟨f₁, touched, touched', file, rfl, rfl, rfl⟩

/-- The streams on a file that is new, or truncated, have nothing waiting. -/
theorem idle_of_empties (h : Follows w s c) (hopen : w.OpenIsPositional path flags) {f' : Files}
    {id : Nat}
    (hempties : w.files.Empties f' (w.resolvePath path) (flags.write && flags.trunc) id) :
    w.Idle id := by
  obtain ⟨p, hp, ⟨-, rfl⟩ | ⟨hentry, htruncate⟩⟩ := hempties.place
  · intro name file hfind hid
    exact absurd (h.known name file _ hfind hid) (lt_irrefl _)
  · rw [Bool.and_eq_true] at htruncate
    exact ((hopen.2 p hp).2 id hentry).2 htruncate.1 htruncate.2

/-- A directory is not opened to be written. -/
theorem isSome_of_write {f f' : Files} {path : List UInt8} {write create truncate : Bool}
    {touched : List Touch} {file : Option Nat}
    (h : f.openFile path write create truncate = .ok (f', touched, file)) (hwrite : write = true) :
    file.isSome := by
  rw [Files.openFile] at h
  split at h
  · cases h
  · split at h
    · split at h
      · split at h
        · cases h
        · cases h
          rfl
      · cases h
    · rw [if_pos hwrite] at h
      cases h
    · split at h <;> cases h <;> rfl
    · cases h

/-- What the files settle to once one of them was opened. -/
theorem settles_open (h : Follows w s c) (hopen : w.OpenIsPositional path flags)
    {f' : Files} {touched : List Touch} {file : Option Nat}
    (hkernel : w.files.openFile (w.resolvePath path) flags.write flags.creat
      (flags.write && flags.trunc) = .ok (f', touched, file)) {w' : World} {name : List UInt8}
    {file' : File} (hpending : file'.stream.pending = [])
    (hcontents : ∀ id, (w'.files.inodes id).content = (f'.inodes id).content)
    (hfree : w.handleToFile.find name = none)
    (hfind : w'.handleToFile = w.handleToFile.set name file') (id : Nat) :
    w'.Settles id (Files.opened c touched file id) := by
  have hfind' : ∀ name', w'.handleToFile.find name' =
      if name' = name then some file' else w.handleToFile.find name' := by
    intro name'
    rw [hfind, OrderedMap.find_set]
    congr
  rcases Files.openFile_inodes hkernel with ⟨rfl, rfl⟩ | ⟨id', t, rfl, rfl, hempties⟩
  · exact (h.settles id).set hfree hpending (hcontents id) hfind'
  · have hidle := h.idle_of_empties hopen hempties
    rw [Files.opened, Function.update_apply]
    split
    · rename_i hid
      rw [hid, ← hempties.content, ← hcontents id']
      refine .idle fun name' file₁ hfile₁ hid₁ => ?_
      rw [hfind'] at hfile₁
      split at hfile₁
      · rw [← Option.some.inj hfile₁]
        exact hpending
      · exact hidle name' file₁ hfile₁ hid₁
    · rename_i hid
      refine (h.settles id).set hfree hpending ?_ hfind'
      rw [hcontents, hempties.others id hid]

theorem openFile (h : Follows w s c) (hopen : w.OpenIsPositional path flags)
    (attrs : Option SftpAttributes) :
    (w.handleOpen path flags attrs).2.1 = (s.openFile path flags attrs).2 ∧
      ∃ c', Follows (w.handleOpen path flags attrs).1 (s.openFile path flags attrs).1 c' := by
  have hrealpath : s.files.realpath = w.files.realpath := by rw [h.files]; rfl
  have hresolved : Path.jail s.files.realpath s.rootPath path = w.resolvePath path := by
    rw [hrealpath, h.rootPath]
    rfl
  rw [PositionalFiles.openFile, hresolved]
  dsimp only
  rcases h.open_cases hopen with ⟨errno, hcode, hasked⟩ | ⟨f', touched, touched', file, hcode,
    hasked, hkernel⟩
  · rw [World.handleOpen]
    dsimp only
    rw [hcode, hasked]
    exact ⟨rfl, c, h⟩
  have hfree := h.find_next
  rw [h.next] at hfree
  obtain ⟨hreply, hworld⟩ := World.handleOpen_ok hcode hfree attrs
  obtain ⟨hcontents, hnext⟩ := chmodAsked_same f' (w.resolvePath path)
    (askedPermissions flags attrs)
  have hopens := Files.openFile_ok hkernel
  rw [hasked, hreply, hworld]
  refine ⟨by rw [h.next], Files.opened c touched' file, ?_⟩
  refine ⟨?_, fun id => ?_, h.rootPath, ?_, fun name' => ?_, fun name' file' hfind' => ?_,
    fun name' file' id hfind' hid => ?_⟩
  · exact (chmodAsked_withContents f' _ (w.resolvePath path) (askedPermissions flags attrs))
  · exact settles_open h hopen hkernel rfl hcontents hfree rfl id
  · change s.next + 1 = (w.nextHandleId + 1).toNat
    have := hopen.1
    rw [h.next, BitVec.toNat_add]
    exact (Nat.mod_eq_of_lt this).symm
  · change Option.Rel StandsFor ((w.handleToFile.set (handleName w.nextHandleId.toNat) _).find name')
      ((s.handles.set (handleName s.next) _).find name')
    rw [OrderedMap.find_set, OrderedMap.find_set, h.next]
    split
    · refine .some ⟨rfl, rfl, fun hread => ?_, fun hwrite => ?_⟩
      · change ((openMode flags).reads && file.isSome) = file.isSome
        rw [openMode_reads hread, Bool.true_and]
      · exact isSome_of_write hkernel hwrite
    · exact h.handles name'
  · change (w.handleToFile.set _ _).find name' = some file' at hfind'
    rw [OrderedMap.find_set] at hfind'
    split at hfind'
    · rename_i hname
      exact ⟨s.next, Nat.lt_succ_self _, hname.trans (by rw [h.next])⟩
    · obtain ⟨n, hlt, hn⟩ := h.issued name' file' hfind'
      exact ⟨n, hlt.trans (Nat.lt_succ_self _), hn⟩
  · change (w.handleToFile.set _ _).find name' = some file' at hfind'
    refine Nat.lt_of_lt_of_eq ?_ hnext.symm
    rw [OrderedMap.find_set] at hfind'
    split at hfind'
    · rw [← Option.some.inj hfind'] at hid
      obtain rfl : file = some id := hid
      exact hopens.lt_next
    · exact (h.known name' file' id hfind' hid).trans_le hopens.next_le

/-- A handle that is open is closed, with its stream. -/
theorem close (h : Follows w s c) {handle : Option (List UInt8)}
    (hclose : ∀ name, handle = some name → (w.handleToFile.find name).isSome) :
    (w.handleClose handle).2.1 = (s.close handle).2 ∧
      Follows (w.handleClose handle).1 (s.close handle).1 c := by
  cases handle with
  | none => exact ⟨rfl, h⟩
  | some name =>
    obtain ⟨file, hfind⟩ := Option.isSome_iff_exists.mp (hclose name rfl)
    obtain ⟨opened, hopened, -⟩ := h.standsFor hfind
    obtain ⟨n, -, hname⟩ := h.issued name file hfind
    have hcut : cString name = name := cString_eq (hname ▸ zero_notMem_handleName n)
    unfold World.handleClose PositionalFiles.close
    dsimp only
    rw [hcut, hfind, hopened, Option.isSome_some, if_pos rfl]
    refine ⟨rfl, ?_, fun id => ?_, h.rootPath, h.next, fun name' => ?_, fun name' file' hfind' => ?_,
      fun name' file' id hfind' hid => ?_⟩
    · exact h.files.trans (Files.withContents_setContent file w.files _).symm
    · refine (h.settles id).flush hfind rfl (fun file' hfind' => ?_) fun name' hne => ?_
      · change (w.handleToFile.erase name).find name = some file' at hfind'
        rw [OrderedMap.find_erase_self] at hfind'
        cases hfind'
      · exact OrderedMap.find_erase_of_ne _ hne
    · change Option.Rel StandsFor ((w.handleToFile.erase name).find name')
        ((s.handles.erase name).find name')
      by_cases hname' : name' = name
      · rw [hname', OrderedMap.find_erase_self, OrderedMap.find_erase_self]
        exact .none
      · rw [OrderedMap.find_erase_of_ne _ hname', OrderedMap.find_erase_of_ne _ hname']
        exact h.handles name'
    · exact h.issued name' file' (OrderedMap.find_of_find_erase hfind')
    · refine (h.known name' file' id (OrderedMap.find_of_find_erase hfind') hid).trans_eq ?_
      exact congrArg FileTree.next (file.tree_flush w.files).symm

/-- Nothing is asked of a handle on a file, or attributes that are not there. -/
theorem fsetstat (h : Follows w s c) {handle : Option (List UInt8)}
    {attrs : Option SftpAttributes}
    (hlive : ∃ opened, handle.bind s.handles.find = some opened ∧ opened.file.isSome)
    (hattrs : ∀ asked, attrs = some asked → asked = ⟨none, none, none⟩) :
    (w.handleSetstat [] attrs).2.1 = (s.fsetstat handle attrs).2 ∧
      Follows (w.handleSetstat [] attrs).1 (s.fsetstat handle attrs).1 c := by
  obtain ⟨⟨file, flags⟩, hopened, hfile⟩ := hlive
  obtain ⟨id, rfl⟩ := Option.isSome_iff_exists.mp hfile
  unfold PositionalFiles.fsetstat
  rw [hopened]
  cases attrs with
  | none => exact ⟨rfl, h⟩
  | some asked =>
    obtain rfl := hattrs asked rfl
    refine ⟨rfl, ?_⟩
    have hself : s.files.setInode id (setAttributes ⟨none, none, none⟩ (s.files.inodes id)) =
        s.files := Files.setInode_self s.files id
    change Follows w { s with
      files := s.files.setInode id (setAttributes ⟨none, none, none⟩ (s.files.inodes id)) } c
    rw [hself]
    exact h

end Follows

/-! ### Runs -/

/-- The requests that do what they stand for. -/
def World.IsPositional (w : World) (s : PositionalFiles) : FileRequest → Prop
  | .open path flags _ => w.OpenIsPositional path flags
  | .read handle offset len keep _ => w.ReadIsPositional s handle offset len keep
  | .write handle offset data _ => w.WriteIsPositional s handle offset data
  | .fsetstat handle attrs =>
      (∃ opened, handle.bind s.handles.find = some opened ∧ opened.file.isSome) ∧
        ∀ asked, attrs = some asked → asked = ⟨none, none, none⟩
  | .close handle => ∀ name, handle = some name → (w.handleToFile.find name).isSome

/-- The offset of a request. -/
def FileRequest.offset : FileRequest → Nat
  | .read _ offset _ _ _ => offset
  | .write _ offset _ _ => offset
  | _ => 0

theorem Follows.handleFile {w : World} {s : PositionalFiles} {c : Nat → List UInt8}
    (h : Follows w s c) {request : FileRequest} (hoffset : request.offset < 2 ^ 63)
    (hrequest : w.IsPositional s request) :
    (w.handleFile request).2.1 = (s.handle request).2 ∧
      ∃ c', Follows (w.handleFile request).1 (s.handle request).1 c' := by
  cases request with
  | «open» path flags attrs => exact h.openFile hrequest attrs
  | read handle offset len keep ahead =>
    obtain ⟨hreply, hfollows⟩ := h.read hoffset hrequest ahead
    exact ⟨hreply, c, hfollows⟩
  | write handle offset data wait => exact h.write hoffset hrequest wait
  | fsetstat handle attrs =>
    obtain ⟨hreply, hfollows⟩ := h.fsetstat hrequest.1 hrequest.2
    exact ⟨hreply, c, hfollows⟩
  | close handle =>
    obtain ⟨hreply, hfollows⟩ := h.close hrequest
    exact ⟨hreply, c, hfollows⟩

/-- The files are handed out under the next name only. -/
theorem PositionalFiles.handle_eq_handle {s : PositionalFiles} {request : FileRequest}
    {name : List UInt8} (h : (s.handle request).2 = .handle name) : name = handleName s.next := by
  cases request with
  | «open» path flags attrs =>
    change (s.openFile path flags attrs).2 = _ at h
    rw [openFile] at h
    dsimp only at h
    split at h
    · cases h
    · cases h
      rfl
  | read handle offset len keep ahead =>
    change s.read handle offset len = _ at h
    rw [read] at h
    split at h
    · cases h
    · split at h
      · cases h
      · split at h <;> cases h
  | write handle offset data wait =>
    change (s.write handle offset data).2 = _ at h
    rw [write] at h
    split at h
    · cases h
    · split at h
      · cases h
      · split at h <;> cases h
  | fsetstat handle attrs =>
    change (s.fsetstat handle attrs).2 = _ at h
    unfold fsetstat at h
    split at h
    · cases h
    · cases h
    · cases h
    · split at h <;> cases h
  | close handle =>
    change (s.close handle).2 = _ at h
    unfold close at h
    split at h
    · cases h
    · split at h <;> cases h

/-- The server and the positional files handle a request. -/
def bothStep (x : World × PositionalFiles) (request : FileRequest) :
    Option (World × PositionalFiles) :=
  some ((x.1.handleFile request).1, (x.2.handle request).1)

/-- The replies are the same, the files end as the same if the streams are closed now, and a
handle that is handed out was not open. -/
structure Agree (x : World × PositionalFiles) (request : FileRequest)
    (x' : World × PositionalFiles) : Prop where
  reply : (x.1.handleFile request).2.1 = (x.2.handle request).2
  files : x'.1.onClose = x'.2.files
  fresh : ∀ name, (x.1.handleFile request).2.1 = .handle name → x.1.handleToFile.find name = none

/-- The handles of a client are positional files while its requests are positional. -/
theorem agree_of_isPositional (files : Files) (rootPath : List UInt8)
    (requests : List FileRequest) (hoffset : ∀ request ∈ requests, request.offset < 2 ^ 63)
    (hrequests : Transition.Along bothStep (fun x request _ => x.1.IsPositional x.2 request)
      (.start files rootPath, .start files rootPath) requests) :
    Transition.Along bothStep Agree (.start files rootPath, .start files rootPath) requests := by
  refine (hrequests.and_forall hoffset).imp_of_invariant (I := fun x => ∃ c, Follows x.1 x.2 c)
    ⟨_, follows_start files rootPath⟩ ?_
  intro x request x' hfollows hstep hrequest
  obtain ⟨c, h⟩ := hfollows
  obtain rfl := Option.some.inj hstep
  obtain ⟨hreply, c', h'⟩ := h.handleFile hrequest.1 hrequest.2
  refine ⟨⟨hreply, ?_, fun name hname => ?_⟩, c', h'⟩
  · exact (World.onClose_eq h'.settles).trans h'.files.symm
  · rw [hreply] at hname
    rw [PositionalFiles.handle_eq_handle hname]
    exact h.find_next

/-! ### A file in a root -/

/-- `/n`, which has a byte. -/
def oneFile : Files where
  tree := (FileTree.create IsEntryName ⟨0o755#32, 0, 0⟩).add [[110]] .file (by decide)
  inodes _ := ⟨[1], ⟨0o644#32, 0, 0⟩⟩
  cwd := []
  umask := 0
  uid := 0
  gid := 0

/-- A file is opened to be truncated, and closed. -/
def truncateRequests : List FileRequest :=
  [.open [110] ⟨false, true, false, true, false⟩ none, .close (some (handleName 1))]

theorem agree_truncateRequests : Transition.Along bothStep Agree
    (.start oneFile [47], .start oneFile [47]) truncateRequests := by
  refine agree_of_isPositional oneFile [47] truncateRequests (by decide) fun x hstep =>
    ⟨⟨by decide, fun p hp => ?_⟩, fun x' hstep' => ⟨fun name hname => ?_, trivial⟩⟩
  · have hlookup : oneFile.lookup true ((World.start oneFile [47]).resolvePath [110]) =
        .ok [[110]] := by decide +kernel
    obtain rfl : [[110]] = p := Except.ok.inj (hlookup.symm.trans hp)
    refine ⟨fun hfree => absurd hfree (by decide +kernel), fun id _ => ⟨fun hne => ?_, ?_⟩⟩
    · exact absurd rfl hne
    · intro _ _ name file hfind
      cases hfind
  · obtain rfl := Option.some.inj hname
    obtain rfl := Option.some.inj hstep
    decide +kernel

/-- A file that is opened with `WRITE` and `CREAT` loses what it had. -/
theorem not_agree : ¬ ∀ (files : Files) (rootPath : List UInt8) (requests : List FileRequest),
    (∀ request ∈ requests, request.offset < 2 ^ 63) →
      Transition.Along bothStep Agree (.start files rootPath, .start files rootPath) requests := by
  intro h
  let create : FileRequest := .open [110] ⟨false, true, false, false, true⟩ none
  have hfiles := ((h oneFile [47] [create] (by decide)) _ rfl).1.files
  have hcontent := congrArg (fun files => (files.inodes 0).content) hfiles
  exact absurd hcontent (by decide +kernel)

end Sihd.Ssh
