import Mathlib.Data.List.Basic
import Mathlib.Data.List.Infix

/-!
# Reading and dumping the entries of an archive

A `ZipFile` reads its loaded entry piece by piece, and keeps the entry open between two
reads. A dump writes the pieces to a file, in the same reader. What the zip library and
the file system do is given to the calls: how the content comes in pieces once an entry
is opened, and what the writes do.
-/

namespace Sihd.Zip

structure Entry where
  name : List UInt8
  content : List UInt8

/-- An open entry: the pieces that `zip_fread` has still to give, and whether it fails
then instead of the end. -/
structure FileHandle where
  chunks : List (List UInt8)
  fails : Bool
  deriving DecidableEq

/-- A way of `zip_fread` to give a content in a buffer of a capacity, of which one
character is kept for the end. -/
structure Cut (content : List UInt8) (capacity : Nat) extends FileHandle where
  sized : ∀ c ∈ chunks, c ≠ [] ∧ c.length < capacity
  start : chunks.flatten <+: content
  whole : fails = false → chunks.flatten = content

structure ZipFile where
  archive : Option (List Entry)
  currentZipEntry : Option Entry
  fileHandle : Option FileHandle

/-- What a `File::write` returns: an error after some bytes, or a number of bytes. -/
inductive Wrote where
  | error (n : Nat)
  | count (n : Nat)

/-- What is done around a dump. An error follows the last of the writes, and `kept` is
the number of bytes that the file has when it is closed. -/
structure Dump (content : List UInt8) (capacity : Nat) where
  makesDirectory : Bool
  opens : Bool
  fopen : Option (Cut content capacity)
  writes : List Wrote
  kept : Nat

namespace ZipFile

def closeFile (z : ZipFile) : ZipFile := { z with fileHandle := none }

def loadEntry (z : ZipFile) (idx : Nat) : ZipFile × Bool :=
  let current := z.archive.bind fun entries => entries[idx]?
  (⟨z.archive, current, none⟩, current.isSome)

def isEntryLoaded (z : ZipFile) : Bool := z.archive.isSome && z.currentZipEntry.isSome

def isEntryDirectory (z : ZipFile) : Bool :=
  z.archive.isSome && z.currentZipEntry.any fun e => e.name.getLast? = some 47

/-- `read_entry`, which opens the entry if it is not open, and closes it at the end and at
an error. The end is an empty piece. -/
def readEntry (z : ZipFile) (fopen : Option FileHandle) : ZipFile × Option (List UInt8) :=
  if z.isEntryLoaded then
    match z.fileHandle.or fopen with
    | none => (z, none)
    | some ⟨c :: chunks, fails⟩ => ({ z with fileHandle := some ⟨chunks, fails⟩ }, some c)
    | some ⟨[], fails⟩ => (z.closeFile, if fails then none else some [])
  else (z, none)

def readNext (z : ZipFile) (fopen : Option FileHandle) : ZipFile × Bool :=
  match z.readEntry fopen with
  | (z, none) => (z, false)
  | (z, some c) => (z, !c.isEmpty)

/-- The loop of `dump_entry_to_fs`, with what follows it. -/
def dumpLoop (fopen : Option FileHandle) :
    List Wrote → ZipFile → List UInt8 → Bool × ZipFile × List UInt8
  | writes, z, destination =>
      match z.readEntry fopen with
      | (z, none) => (false, z, destination)
      | (z, some []) => (true, z, destination)
      | (z, some (b :: data)) =>
          match writes with
          | [] => (false, z.closeFile, destination)
          | .error n :: _ => (false, z.closeFile, destination ++ (b :: data).take n)
          | .count n :: writes =>
              if n = 0 then (true, z, destination)
              else dumpLoop fopen writes z (destination ++ (b :: data).take n)

/-- `dump_entry_to_fs`, with the content of the destination if it is a file. -/
def dumpEntryToFs {content : List UInt8} {capacity : Nat} (z : ZipFile)
    (d : Dump content capacity) : Bool × ZipFile × Option (List UInt8) :=
  if z.isEntryLoaded = false then (false, z, none)
  else if z.isEntryDirectory then (d.makesDirectory, z, none)
  else if d.opens = false then (false, z, none)
  else
    let (ret, z, destination) := dumpLoop (d.fopen.map Cut.toFileHandle) d.writes z []
    (ret, z, some (destination.take d.kept))

end ZipFile

/-- An entry that is a file. -/
abbrev FileEntry := { e : Entry // e.name.getLast? ≠ some 47 }

/-- An entry that is loaded from an archive, after some calls of `read_next`. Each is given
how the entry is opened if it is not open. -/
def readNexts (before after : List Entry) (e : FileEntry) {capacity : Nat}
    (fopens : List (Option (Cut e.1.content capacity))) : ZipFile :=
  fopens.foldl (fun z fopen => (z.readNext (fopen.map Cut.toFileHandle)).1)
    (ZipFile.loadEntry ⟨some (before ++ e.1 :: after), none, none⟩ before.length).1

/-- The destination of a dump that returns true is the content, and the next read is that
of an entry that is not open. -/
structure DumpsWhole {content : List UInt8} {capacity : Nat} (z : ZipFile)
    (d : Dump content capacity) : Prop where
  written : (z.dumpEntryToFs d).1 = true → (z.dumpEntryToFs d).2.2 = some content
  startsOver : ∀ fopen : Option (Cut content capacity),
    (z.dumpEntryToFs d).2.1.readEntry (fopen.map Cut.toFileHandle) =
      (z.dumpEntryToFs d).2.1.closeFile.readEntry (fopen.map Cut.toFileHandle)

/-- What the writes of some pieces come to: all of them are written, or they are but for
some bytes, or one of them writes nothing, or fails. -/
inductive Ending where
  | whole
  | short
  | zero
  | error
  deriving DecidableEq

def ending : List (List UInt8) → List Wrote → Ending
  | [], _ => .whole
  | _ :: _, [] => .error
  | _ :: _, .error _ :: _ => .error
  | c :: chunks, .count n :: writes =>
      if n = 0 then .zero
      else match ending chunks writes with
        | .whole => if n < c.length then .short else .whole
        | e => e

/-- A file that cannot be opened is the destination of an entry that is not open. Else an
error comes before a write of nothing; or there is none, and the entry was not open, all
is written and all is kept by the close. -/
def Faithful {content : List UInt8} {capacity : Nat} (z : ZipFile) (d : Dump content capacity) :
    Prop :=
  if d.opens then
    ∀ h, z.fileHandle.or (d.fopen.map Cut.toFileHandle) = some h →
      match ending h.chunks d.writes with
      | .whole => h.fails = true ∨ z.fileHandle = none ∧ content.length ≤ d.kept
      | .short => h.fails = true
      | .zero => False
      | .error => True
  else z.fileHandle = none

namespace ZipFile

/-! ## Reads -/

section Reads

variable {z : ZipFile} {fopen : Option FileHandle}

theorem readEntry_of_none (hloaded : z.isEntryLoaded = true) (h : z.fileHandle.or fopen = none) :
    z.readEntry fopen = (z, none) := by
  rw [readEntry, if_pos hloaded, h]

theorem readEntry_of_nil (hloaded : z.isEntryLoaded = true) {fails : Bool}
    (h : z.fileHandle.or fopen = some ⟨[], fails⟩) :
    z.readEntry fopen = (z.closeFile, if fails then none else some []) := by
  rw [readEntry, if_pos hloaded, h]

theorem readEntry_of_cons (hloaded : z.isEntryLoaded = true) {c : List UInt8}
    {chunks : List (List UInt8)} {fails : Bool}
    (h : z.fileHandle.or fopen = some ⟨c :: chunks, fails⟩) :
    z.readEntry fopen = ({ z with fileHandle := some ⟨chunks, fails⟩ }, some c) := by
  rw [readEntry, if_pos hloaded, h]

end Reads

/-! ## The loop of a dump -/

section Loop

variable {z : ZipFile} {fopen : Option FileHandle}

/-- What the loop does with the pieces that are still to come. -/
theorem dumpLoop_spec (hloaded : z.isEntryLoaded = true) {chunks : List (List UInt8)}
    {fails : Bool} (hhandle : z.fileHandle.or fopen = some ⟨chunks, fails⟩)
    (hchunks : ∀ c ∈ chunks, c ≠ []) (writes : List Wrote) (destination : List UInt8) :
    match ending chunks writes with
    | .whole => dumpLoop fopen writes z destination =
        (!fails, z.closeFile, destination ++ chunks.flatten)
    | .short => ∃ data : List UInt8, data.length < chunks.flatten.length ∧
        dumpLoop fopen writes z destination = (!fails, z.closeFile, destination ++ data)
    | .zero => ∃ given rest destination', given ≠ [] ∧ chunks = given ++ rest ∧
        dumpLoop fopen writes z destination =
          (true, { z with fileHandle := some ⟨rest, fails⟩ }, destination')
    | .error => ∃ destination',
        dumpLoop fopen writes z destination = (false, z.closeFile, destination') := by
  induction chunks generalizing z writes destination with
  | nil =>
    rw [ending, dumpLoop, readEntry_of_nil hloaded hhandle]
    cases fails <;> simp
  | cons c chunks ih =>
    rw [List.forall_mem_cons] at hchunks
    obtain ⟨b, data, rfl⟩ := List.exists_cons_of_ne_nil hchunks.1
    have hread := readEntry_of_cons hloaded hhandle
    cases writes with
    | nil =>
      refine ⟨destination, ?_⟩
      rw [dumpLoop, hread]
      rfl
    | cons wrote writes =>
      cases wrote with
      | error n =>
        refine ⟨destination ++ (b :: data).take n, ?_⟩
        rw [dumpLoop, hread]
        rfl
      | count n =>
        rw [ending, dumpLoop, hread]
        dsimp only
        by_cases hn : n = 0
        · rw [if_pos hn, if_pos hn]
          exact ⟨[b :: data], chunks, destination, by simp, rfl, rfl⟩
        · rw [if_neg hn, if_neg hn]
          have ih := @ih { z with fileHandle := some ⟨chunks, fails⟩ } hloaded rfl hchunks.2 writes
            (destination ++ (b :: data).take n)
          cases hending : ending chunks writes with
          | whole =>
            rw [hending] at ih
            by_cases hshort : n < (b :: data).length
            · rw [if_pos hshort]
              refine ⟨(b :: data).take n ++ chunks.flatten, ?_, ?_⟩
              · rw [List.flatten_cons, List.length_append, List.length_append, List.length_take]
                omega
              · rw [ih, List.append_assoc]
                rfl
            · rw [if_neg hshort]
              rw [List.take_of_length_le (not_lt.mp hshort)] at ih ⊢
              rw [ih, List.flatten_cons, List.append_assoc]
              rfl
          | short =>
            rw [hending] at ih
            obtain ⟨rest, hlt, hloop⟩ := ih
            refine ⟨(b :: data).take n ++ rest, ?_, ?_⟩
            · rw [List.flatten_cons, List.length_append, List.length_append, List.length_take]
              omega
            · rw [hloop, List.append_assoc]
              rfl
          | zero =>
            rw [hending] at ih
            obtain ⟨given, rest, destination', -, rfl, hloop⟩ := ih
            exact ⟨(b :: data) :: given, rest, destination', List.cons_ne_nil _ _, rfl, hloop⟩
          | error =>
            rw [hending] at ih
            exact ih

end Loop

end ZipFile

/-! ## The history of the handle -/

section History

variable {content : List UInt8} {capacity : Nat}

/-- An open entry of which some pieces were given. -/
def PartRead (content : List UInt8) (capacity : Nat) (h : FileHandle) : Prop :=
  ∃ (cut : Cut content capacity) (given : List (List UInt8)), given ≠ [] ∧
    cut.chunks = given ++ h.chunks ∧ cut.fails = h.fails

/-- A loaded file entry, which is not open or part-way. -/
structure Reading (content : List UInt8) (capacity : Nat) (z : ZipFile) : Prop where
  loaded : z.isEntryLoaded = true
  file : z.isEntryDirectory = false
  partRead : ∀ h, z.fileHandle = some h → PartRead content capacity h

theorem Reading.closeFile {z : ZipFile} (h : Reading content capacity z) :
    Reading content capacity z.closeFile where
  loaded := h.loaded
  file := h.file
  partRead := nofun

theorem PartRead.tail {c : List UInt8} {chunks : List (List UInt8)} {fails : Bool}
    (h : PartRead content capacity ⟨c :: chunks, fails⟩) :
    PartRead content capacity ⟨chunks, fails⟩ := by
  obtain ⟨cut, given, hgiven, hchunks, hfails⟩ := h
  refine ⟨cut, given ++ [c], by simp, ?_, hfails⟩
  rw [hchunks, List.append_assoc]
  rfl

theorem partRead_of_cut (cut : Cut content capacity) {c : List UInt8}
    {chunks : List (List UInt8)} {fails : Bool} (h : cut.toFileHandle = ⟨c :: chunks, fails⟩) :
    PartRead content capacity ⟨chunks, fails⟩ := by
  refine ⟨cut, [c], by simp, ?_, ?_⟩
  · rw [h]
    rfl
  · rw [h]

/-- The handle that a read is made with is part-way, or that of a new opening. -/
theorem Reading.or_cases {z : ZipFile} (hz : Reading content capacity z)
    {fopen : Option (Cut content capacity)} {h : FileHandle}
    (hhandle : z.fileHandle.or (fopen.map Cut.toFileHandle) = some h) :
    (z.fileHandle = some h ∧ PartRead content capacity h) ∨
      z.fileHandle = none ∧ ∃ cut : Cut content capacity, cut.toFileHandle = h := by
  cases hopen : z.fileHandle with
  | some h' =>
    rw [hopen, Option.some_or, Option.some_inj] at hhandle
    subst hhandle
    exact .inl ⟨rfl, hz.partRead h' hopen⟩
  | none =>
    rw [hopen, Option.none_or, Option.map_eq_some_iff] at hhandle
    obtain ⟨cut, -, hcut⟩ := hhandle
    exact .inr ⟨rfl, cut, hcut⟩

theorem Reading.readEntry {z : ZipFile} (hz : Reading content capacity z)
    (fopen : Option (Cut content capacity)) :
    Reading content capacity (z.readEntry (fopen.map Cut.toFileHandle)).1 := by
  cases hhandle : z.fileHandle.or (fopen.map Cut.toFileHandle) with
  | none =>
    rw [ZipFile.readEntry_of_none hz.loaded hhandle]
    exact hz
  | some h =>
    obtain ⟨chunks, fails⟩ := h
    cases chunks with
    | nil =>
      rw [ZipFile.readEntry_of_nil hz.loaded hhandle]
      exact hz.closeFile
    | cons c chunks =>
      rw [ZipFile.readEntry_of_cons hz.loaded hhandle]
      refine ⟨hz.loaded, hz.file, fun h hopen => ?_⟩
      obtain rfl := Option.some.inj hopen
      obtain ⟨-, hpart⟩ | ⟨-, cut, hcut⟩ := hz.or_cases hhandle
      · exact hpart.tail
      · exact partRead_of_cut cut hcut

theorem readNext_fst (z : ZipFile) (fopen : Option FileHandle) :
    (z.readNext fopen).1 = (z.readEntry fopen).1 := by
  rw [ZipFile.readNext]
  cases hread : z.readEntry fopen with
  | mk z' piece => cases piece <;> rfl

theorem reading_loadEntry (before after : List Entry) (e : FileEntry) :
    Reading e.1.content capacity
      (ZipFile.loadEntry ⟨some (before ++ e.1 :: after), none, none⟩ before.length).1 where
  loaded := by simp [ZipFile.loadEntry, ZipFile.isEntryLoaded]
  file := by simp [ZipFile.loadEntry, ZipFile.isEntryDirectory, e.2]
  partRead := nofun

theorem reading_readNexts (before after : List Entry) (e : FileEntry)
    (fopens : List (Option (Cut e.1.content capacity))) :
    Reading e.1.content capacity (readNexts before after e fopens) := by
  rw [readNexts]
  have hload := @reading_loadEntry capacity before after e
  generalize (ZipFile.loadEntry ⟨some (before ++ e.1 :: after), none, none⟩ before.length).1 = z
    at hload
  induction fopens generalizing z with
  | nil => exact hload
  | cons fopen fopens ih =>
    rw [List.foldl_cons]
    refine ih _ ?_
    rw [readNext_fst]
    exact hload.readEntry fopen

/-- The pieces of an entry are not empty. -/
theorem PartRead.chunks_ne {h : FileHandle} (hpart : PartRead content capacity h) :
    ∀ c ∈ h.chunks, c ≠ [] := by
  obtain ⟨cut, given, -, hchunks, -⟩ := hpart
  intro c hc
  refine (cut.sized c ?_).1
  rw [hchunks]
  exact List.mem_append_right given hc

/-- What is still to come of an entry is not all of it. -/
theorem PartRead.length_lt {h : FileHandle} (hpart : PartRead content capacity h) :
    h.chunks.flatten.length < content.length := by
  obtain ⟨cut, given, hgiven, hchunks, -⟩ := hpart
  obtain ⟨c, given, rfl⟩ := List.exists_cons_of_ne_nil hgiven
  have hle := cut.start.length_le
  have hc := (cut.sized c (by rw [hchunks]; exact List.mem_cons_self)).1
  have hpos := List.length_pos_of_ne_nil hc
  rw [hchunks, List.flatten_append, List.flatten_cons, List.length_append,
    List.length_append] at hle
  omega

/-- A buffer in which a piece was given can give the content in pieces of one byte. -/
theorem PartRead.exists_whole {h : FileHandle} (hpart : PartRead content capacity h) :
    ∃ cut : Cut content capacity, cut.chunks.flatten = content := by
  obtain ⟨cut, given, hgiven, hchunks, -⟩ := hpart
  obtain ⟨c, given, rfl⟩ := List.exists_cons_of_ne_nil hgiven
  have hc := cut.sized c (by rw [hchunks]; exact List.mem_cons_self)
  have hpos := List.length_pos_of_ne_nil hc.1
  have hflatten : (content.map fun b => [b]).flatten = content := by
    rw [← List.flatMap_def, List.flatMap_singleton']
  refine ⟨⟨⟨content.map fun b => [b], false⟩, fun c' hc' => ?_, ?_, fun _ => hflatten⟩, hflatten⟩
  · obtain ⟨b, -, rfl⟩ := List.mem_map.mp hc'
    refine ⟨List.cons_ne_nil b [], ?_⟩
    rw [List.length_singleton]
    omega
  · rw [hflatten]

/-- The next read opens the entry exactly when the entry is not open. -/
theorem Reading.startsOver_iff {z : ZipFile} (hz : Reading content capacity z) :
    (∀ fopen : Option (Cut content capacity), z.readEntry (fopen.map Cut.toFileHandle) =
      z.closeFile.readEntry (fopen.map Cut.toFileHandle)) ↔ z.fileHandle = none := by
  constructor
  · intro hreads
    cases hopen : z.fileHandle with
    | none => rfl
    | some h =>
      have hpart := hz.partRead h hopen
      have hlt := hpart.length_lt
      obtain ⟨cut, hwhole⟩ := hpart.exists_whole
      obtain ⟨c, chunks, hchunks⟩ : ∃ c chunks, cut.chunks = c :: chunks := by
        refine List.exists_cons_of_ne_nil fun hnil => ?_
        rw [← hwhole, hnil] at hlt
        simp at hlt
      have hclosed : z.closeFile.fileHandle.or (Option.map Cut.toFileHandle (some cut)) =
          some ⟨c :: chunks, cut.fails⟩ := by
        rw [← hchunks]
        rfl
      have hread := hreads (some cut)
      rw [ZipFile.readEntry_of_cons hz.closeFile.loaded hclosed] at hread
      obtain ⟨chunks', fails⟩ := h
      have hhandle : z.fileHandle.or (Option.map Cut.toFileHandle (some cut)) =
          some ⟨chunks', fails⟩ := by
        rw [hopen, Option.some_or]
      cases chunks' with
      | nil =>
        rw [ZipFile.readEntry_of_nil hz.loaded hhandle] at hread
        cases congrArg (fun r => r.1.fileHandle) hread
      | cons c' chunks' =>
        rw [ZipFile.readEntry_of_cons hz.loaded hhandle, Prod.mk.injEq, Option.some_inj] at hread
        have hrest := Option.some.inj (congrArg ZipFile.fileHandle hread.1)
        rw [FileHandle.mk.injEq] at hrest
        rw [← hwhole, hchunks, ← hrest.1, ← hread.2] at hlt
        exact absurd hlt (lt_irrefl _)
  · intro hnone fopen
    rw [ZipFile.closeFile, ← hnone]

end History

/-! ## Dumps -/

section Dumps

variable {content : List UInt8} {capacity : Nat}

theorem Reading.dumpEntryToFs_of_closed {z : ZipFile} (hz : Reading content capacity z)
    {d : Dump content capacity} (hopens : d.opens = false) :
    z.dumpEntryToFs d = (false, z, none) := by
  simp [ZipFile.dumpEntryToFs, hz.loaded, hz.file, hopens]

theorem Reading.dumpEntryToFs_eq {z : ZipFile} (hz : Reading content capacity z)
    {d : Dump content capacity} (hopens : d.opens = true) {ret : Bool} {z' : ZipFile}
    {destination : List UInt8}
    (hloop : ZipFile.dumpLoop (d.fopen.map Cut.toFileHandle) d.writes z [] =
      (ret, z', destination)) :
    z.dumpEntryToFs d = (ret, z', some (destination.take d.kept)) := by
  simp [ZipFile.dumpEntryToFs, hz.loaded, hz.file, hopens, hloop]

/-- A dump that ends with the entry closed. -/
theorem dumpsWhole_of_closed {z : ZipFile} {d : Dump content capacity} {ret : Bool}
    {destination : Option (List UInt8)}
    (hdump : z.dumpEntryToFs d = (ret, z.closeFile, destination)) :
    DumpsWhole z d ↔ (ret = true → destination = some content) := by
  constructor
  · intro h
    have hwritten := h.written
    rwa [hdump] at hwritten
  · intro h
    refine ⟨?_, fun fopen => ?_⟩
    · rw [hdump]
      exact h
    · rw [hdump]
      rfl

/-- An entry that is left part-way is not read from its beginning. -/
theorem not_dumpsWhole_of_open {z : ZipFile} (hz : Reading content capacity z)
    {d : Dump content capacity} {ret : Bool} {h : FileHandle} {destination : Option (List UInt8)}
    (hpart : PartRead content capacity h)
    (hdump : z.dumpEntryToFs d = (ret, { z with fileHandle := some h }, destination)) :
    ¬ DumpsWhole z d := by
  intro hwhole
  have hleft : Reading content capacity { z with fileHandle := some h } := by
    refine ⟨hz.loaded, hz.file, fun h' hopen => ?_⟩
    rwa [← Option.some.inj hopen]
  have hstarts := hwhole.startsOver
  rw [hdump, hleft.startsOver_iff] at hstarts
  cases hstarts

theorem PartRead.of_append {given rest : List (List UInt8)} {fails : Bool} (hgiven : given ≠ [])
    (h : PartRead content capacity ⟨given ++ rest, fails⟩ ∨
      ∃ cut : Cut content capacity, cut.toFileHandle = ⟨given ++ rest, fails⟩) :
    PartRead content capacity ⟨rest, fails⟩ := by
  obtain ⟨cut, given', -, hchunks, hfails⟩ | ⟨cut, hcut⟩ := h
  · refine ⟨cut, given' ++ given, by simp [hgiven], ?_, hfails⟩
    rw [hchunks, List.append_assoc]
  · refine ⟨cut, given, hgiven, ?_, ?_⟩
    · rw [hcut]
    · rw [hcut]

/-- All pieces of an entry are its content when the entry was not open, and when they are
kept. -/
theorem take_flatten_iff {z : ZipFile} {chunks : List (List UInt8)} (kept : Nat)
    (h : (z.fileHandle = some ⟨chunks, false⟩ ∧ PartRead content capacity ⟨chunks, false⟩) ∨
      z.fileHandle = none ∧ ∃ cut : Cut content capacity, cut.toFileHandle = ⟨chunks, false⟩) :
    chunks.flatten.take kept = content ↔ z.fileHandle = none ∧ content.length ≤ kept := by
  obtain ⟨hopen, hpart⟩ | ⟨hopen, cut, hcut⟩ := h
  · refine iff_of_false (fun heq => ?_) fun hnone => ?_
    · have hlt := hpart.length_lt
      have hle := List.length_take_le' kept chunks.flatten
      rw [heq] at hle
      exact absurd hlt (not_lt.mpr hle)
    · rw [hopen] at hnone
      cases hnone.1
  · have hwhole := cut.whole (by rw [hcut])
    rw [hcut] at hwhole
    dsimp only at hwhole
    rw [hwhole, List.take_eq_self_iff, and_iff_right hopen]

theorem length_flatten_le {z : ZipFile} {h : FileHandle}
    (hcases : (z.fileHandle = some h ∧ PartRead content capacity h) ∨
      z.fileHandle = none ∧ ∃ cut : Cut content capacity, cut.toFileHandle = h) :
    h.chunks.flatten.length ≤ content.length := by
  obtain ⟨-, hpart⟩ | ⟨-, cut, rfl⟩ := hcases
  · exact hpart.length_lt.le
  · exact cut.start.length_le

theorem pieces_ne {z : ZipFile} {h : FileHandle}
    (hcases : (z.fileHandle = some h ∧ PartRead content capacity h) ∨
      z.fileHandle = none ∧ ∃ cut : Cut content capacity, cut.toFileHandle = h) :
    ∀ c ∈ h.chunks, c ≠ [] := by
  obtain ⟨-, hpart⟩ | ⟨-, cut, rfl⟩ := hcases
  · exact hpart.chunks_ne
  · exact fun c hc => (cut.sized c hc).1

/-- Fewer bytes than the pieces have are not the content. -/
theorem take_ne_of_short {z : ZipFile} {h : FileHandle} (kept : Nat) {data : List UInt8}
    (hcases : (z.fileHandle = some h ∧ PartRead content capacity h) ∨
      z.fileHandle = none ∧ ∃ cut : Cut content capacity, cut.toFileHandle = h)
    (hlt : data.length < h.chunks.flatten.length) : data.take kept ≠ content := by
  intro heq
  have hle := List.length_take_le' kept data
  have hflatten := length_flatten_le hcases
  rw [heq] at hle
  exact absurd (hflatten.trans hle) (not_le.mpr hlt)

/-- A dump that has a handle to read from, by what the writes of its pieces come to. -/
theorem Reading.dumpsWhole_iff_of_handle {z : ZipFile} (hz : Reading content capacity z)
    {d : Dump content capacity} (hopens : d.opens = true) {chunks : List (List UInt8)}
    {fails : Bool}
    (hhandle : z.fileHandle.or (d.fopen.map Cut.toFileHandle) = some ⟨chunks, fails⟩) :
    DumpsWhole z d ↔
      match ending chunks d.writes with
      | .whole => fails = true ∨ z.fileHandle = none ∧ content.length ≤ d.kept
      | .short => fails = true
      | .zero => False
      | .error => True := by
  have hcases := hz.or_cases hhandle
  have hspec := ZipFile.dumpLoop_spec hz.loaded hhandle (pieces_ne hcases) d.writes []
  cases hending : ending chunks d.writes with
  | whole =>
    rw [hending] at hspec
    rw [dumpsWhole_of_closed (hz.dumpEntryToFs_eq hopens hspec), List.nil_append]
    cases fails with
    | true => simp
    | false => simpa using take_flatten_iff d.kept hcases
  | short =>
    rw [hending] at hspec
    obtain ⟨data, hlt, hloop⟩ := hspec
    rw [dumpsWhole_of_closed (hz.dumpEntryToFs_eq hopens hloop), List.nil_append]
    cases fails with
    | true => simp
    | false => simpa using take_ne_of_short d.kept hcases hlt
  | zero =>
    rw [hending] at hspec
    obtain ⟨given, rest, destination, hgiven, rfl, hloop⟩ := hspec
    have hpart : PartRead content capacity ⟨rest, fails⟩ :=
      PartRead.of_append hgiven (hcases.imp And.right And.right)
    exact iff_of_false
      (not_dumpsWhole_of_open hz hpart (hz.dumpEntryToFs_eq hopens hloop)) id
  | error =>
    rw [hending] at hspec
    obtain ⟨destination, hloop⟩ := hspec
    rw [dumpsWhole_of_closed (hz.dumpEntryToFs_eq hopens hloop)]
    simp

/-- A dump that has no handle to read from reports failure. -/
theorem Reading.dumpsWhole_of_no_handle {z : ZipFile} (hz : Reading content capacity z)
    {d : Dump content capacity} (hopens : d.opens = true)
    (hhandle : z.fileHandle.or (d.fopen.map Cut.toFileHandle) = none) : DumpsWhole z d := by
  have hloop : ZipFile.dumpLoop (d.fopen.map Cut.toFileHandle) d.writes z [] =
      (false, z.closeFile, []) := by
    rw [ZipFile.dumpLoop, ZipFile.readEntry_of_none hz.loaded hhandle, ZipFile.closeFile,
      ← (Option.or_eq_none_iff.mp hhandle).1]
  rw [dumpsWhole_of_closed (hz.dumpEntryToFs_eq hopens hloop)]
  simp

/-- A dump whose file cannot be opened leaves the entry as it was. -/
theorem Reading.dumpsWhole_iff_of_closed {z : ZipFile} (hz : Reading content capacity z)
    {d : Dump content capacity} (hopens : d.opens = false) :
    DumpsWhole z d ↔ z.fileHandle = none := by
  rw [← hz.startsOver_iff]
  have hdump := hz.dumpEntryToFs_of_closed hopens
  constructor
  · intro h
    have hstarts := h.startsOver
    rwa [hdump] at hstarts
  · intro h
    refine ⟨?_, ?_⟩
    · rw [hdump]
      nofun
    · rwa [hdump]

theorem Reading.dumpsWhole_iff_faithful {z : ZipFile} (hz : Reading content capacity z)
    (d : Dump content capacity) : DumpsWhole z d ↔ Faithful z d := by
  rw [Faithful]
  by_cases hopens : d.opens = true
  · rw [if_pos hopens]
    cases hhandle : z.fileHandle.or (d.fopen.map Cut.toFileHandle) with
    | none =>
      have hwhole := hz.dumpsWhole_of_no_handle hopens hhandle
      simpa using hwhole
    | some h =>
      rw [hz.dumpsWhole_iff_of_handle hopens hhandle]
      simp
  · rw [if_neg hopens, hz.dumpsWhole_iff_of_closed (Bool.not_eq_true _ ▸ hopens)]

/-- A dump writes the whole entry or reports failure, and leaves an entry that is read from
its beginning, exactly when it is faithful. -/
theorem dumpsWhole_iff (before after : List Entry) (e : FileEntry) (capacity : Nat)
    (fopens : List (Option (Cut e.1.content capacity))) (d : Dump e.1.content capacity) :
    DumpsWhole (readNexts before after e fopens) d ↔
      Faithful (readNexts before after e fopens) d :=
  (reading_readNexts before after e fopens).dumpsWhole_iff_faithful d

/-- An entry of two bytes. -/
def twoBytes : FileEntry := ⟨⟨[102], [97, 98]⟩, by decide⟩

def byteByByte : Cut twoBytes.1.content 4097 where
  chunks := [[97], [98]]
  fails := false
  sized := by decide
  start := List.prefix_rfl
  whole := fun _ => rfl

/-- A dump after one byte was read writes the other one only. -/
theorem not_dumpsWhole_of_partRead :
    ¬ DumpsWhole (readNexts [] [] twoBytes [some byteByByte])
      ⟨true, true, some byteByByte, [.count 1, .count 1], 2⟩ := by
  intro h
  have hwritten := h.written
  revert hwritten
  decide

end Dumps

end Sihd.Zip
