import Mathlib.Data.List.Lex
import Mathlib.Data.List.Nodup
import Mathlib.Data.List.TakeWhile
import Mathlib.Data.Set.Basic
import Sihd.Lib.SortedSets
import Sihd.Sys.Path

/-!
# Polling a path

A poller compares what is at a path, and below it when that is a directory, with
what was there before. A directory is listed with a separator behind its path.
-/

namespace Sihd.Sys

open Util Path

/-! ## What is at a path -/

/-- What is found at a path, with its last write: a file is anything that is not
listed as a directory. -/
inductive Node where
  | file (name : List UInt8) (written : Int)
  | directory (name : List UInt8) (written : Int) (children : List Node)

namespace Node

def name : Node → List UInt8
  | file name _ => name
  | directory name _ _ => name

def written : Node → Int
  | file _ written => written
  | directory _ written _ => written

def children : Node → List Node
  | file _ _ => []
  | directory _ _ children => children

def isDirectory : Node → Bool
  | file _ _ => false
  | directory _ _ _ => true

/-- Induction over what is below. -/
@[elab_as_elim]
theorem inductEntries {motive : Node → Prop}
    (file : ∀ name written, motive (.file name written))
    (directory : ∀ name written children,
      (∀ c ∈ children, motive c) → motive (.directory name written children)) :
    ∀ n, motive n
  | .file name written => file name written
  | .directory name written children =>
      directory name written children fun c _ => inductEntries file directory c

/-- What the names lead to. -/
def find? : List (List UInt8) → Node → Option Node
  | [], n => some n
  | name :: names, n => (n.children.find? fun c => c.name = name).bind (find? names)

/-- The entries of a directory have names, and no two have the same. -/
def WellFormed (n : Node) : Prop :=
  ∀ names m, n.find? names = some m →
    (m.children.map name).Nodup ∧ ∀ c ∈ m.children, IsName c.name

end Node

structure FileStat where
  path : List UInt8
  lastAccessed : Int

namespace FileStat

/-- The order of the paths is that of their bytes. -/
def key (stat : FileStat) : List Nat := stat.path.map UInt8.toNat

end FileStat

/-- `combine_impl`. -/
def combineImpl (path1 path2 : List UInt8) : List UInt8 :=
  if path1 = [] then path2
  else if path1.getLast? = some Str.slash then path1 ++ path2
  else path1 ++ Str.slash :: path2

/-- The path of an entry of a directory, as it is listed. -/
def entryPath (path : List UInt8) (n : Node) : List UInt8 :=
  combineImpl path n.name ++ if n.isDirectory then [Str.slash] else []

mutual

/-- `get_recursive_children`, with the last write of each path; no limit is 0. -/
def getRecursiveChildren (maxDepth : Nat) (path : List UInt8) (currentDepth : Nat) :
    Node → List FileStat
  | .file _ _ => []
  | .directory _ _ children =>
      if 0 < maxDepth ∧ maxDepth ≤ currentDepth then []
      else readEntries maxDepth path currentDepth children

/-- Its loop over the entries of a directory. -/
def readEntries (maxDepth : Nat) (path : List UInt8) (currentDepth : Nat) :
    List Node → List FileStat
  | [] => []
  | n :: entries =>
      ⟨entryPath path n, n.written⟩ ::
        (getRecursiveChildren maxDepth (combineImpl path n.name) (currentDepth + 1) n ++
          readEntries maxDepth path currentDepth entries)

end

/-- What is at the watched path, if there is anything. -/
structure Snapshot where
  node : Option Node
  wellFormed : ∀ n ∈ node, n.WellFormed

namespace Snapshot

variable (S : Snapshot)

def pathExists : Bool := S.node.isSome

def isDir : Bool := S.node.any Node.isDirectory

/-- The last write of nothing is the time 0. -/
def lastWrite : Int := (S.node.map Node.written).getD 0

end Snapshot

/-! ## The poller -/

/-- The order of `std::sort`. -/
def FileStat.le (a b : FileStat) : Bool := decide (a.key ≤ b.key)

/-- `map_path_into`. -/
def mapPathInto (S : Snapshot) (path : List UInt8) (maxDepth : UInt32) : List FileStat :=
  match S.node with
  | none => []
  | some n =>
      if n.isDirectory then (getRecursiveChildren maxDepth.toNat path 0 n).mergeSort FileStat.le
      else []

/-- `last_write` of a path that was just listed. -/
def lastWrite (files : List FileStat) (path : List UInt8) : Int :=
  ((files.find? fun file => file.path = path).map FileStat.lastAccessed).getD 0

/-- The loop that builds the changed files: the old files are walked in step with
those that are still there. -/
def changedFiles (newFiles : List FileStat) : List FileStat → List FileStat → List (List UInt8)
  | _, [] => []
  | oldFiles, same :: sameFiles =>
      match oldFiles.dropWhile fun old => old.path ≠ same.path with
      | [] => []
      | old :: oldFiles =>
          let changed := changedFiles newFiles (old :: oldFiles) sameFiles
          if old.lastAccessed ≠ lastWrite newFiles same.path then old.path :: changed else changed

structure FilePoller where
  watchPath : List UInt8 := []
  maxDepth : UInt64 := 0
  pathExists : Bool := false
  lastModif : Int := 0
  last : List FileStat := []
  created : List (List UInt8) := []
  removed : List (List UInt8) := []
  changed : List (List UInt8) := []

namespace FilePoller

/-- `watch`, with what it returns. -/
def watch (p : FilePoller) (S : Snapshot) (path : List UInt8) (maxDepth : UInt64) :
    Bool × FilePoller :=
  if p.watchPath = path then (true, p)
  else if path = [] then (false, {})
  else (true,
    { watchPath := path
      maxDepth := maxDepth
      pathExists := S.pathExists
      lastModif := if S.pathExists then S.lastWrite else 0
      last := mapPathInto S path maxDepth.toUInt32 })

/-- The lists of a run, of what is below a directory. -/
def compareFiles (p : FilePoller) (newFiles : List FileStat) : FilePoller :=
  let sameFiles := setIntersection FileStat.key p.last newFiles
  { p with
    changed := changedFiles newFiles p.last sameFiles
    created := (setDifference FileStat.key newFiles sameFiles).map FileStat.path
    removed := (setDifference FileStat.key p.last newFiles).map FileStat.path }

/-- What a run tells about the watched path itself. -/
def compareSelf (p : FilePoller) (S : Snapshot) : FilePoller :=
  if ¬ S.pathExists ∧ p.pathExists then { p with removed := p.removed ++ [p.watchPath] }
  else if S.pathExists ∧ ¬ p.pathExists then { p with created := p.created ++ [p.watchPath] }
  else if p.lastModif < S.lastWrite then { p with changed := p.changed ++ [p.watchPath] }
  else p

/-- `run`, with what it returns. -/
def run (p : FilePoller) (S : Snapshot) : Bool × FilePoller :=
  if p.watchPath = [] then (false, p)
  else
    let newFiles := mapPathInto S p.watchPath p.maxDepth.toUInt32
    let cleared := { p with created := [], removed := [], changed := [] }
    let listed := if S.isDir then cleared.compareFiles newFiles else cleared
    (true, { listed.compareSelf S with
      pathExists := S.pathExists
      lastModif := S.lastWrite
      last := newFiles })

end FilePoller

/-! ## Listing -/

section Listing

variable {maxDepth depth : Nat} {path : List UInt8} {n m : Node} {stat : FileStat}
  {entries : List Node}

theorem mem_readEntries :
    stat ∈ readEntries maxDepth path depth entries ↔ ∃ c ∈ entries,
      stat = ⟨entryPath path c, c.written⟩ ∨
        stat ∈ getRecursiveChildren maxDepth (combineImpl path c.name) (depth + 1) c := by
  induction entries with
  | nil => simp [readEntries]
  | cons c entries ih => simp [readEntries, ih, or_assoc]

theorem Node.WellFormed.find? (h : n.WellFormed) {c : Node} (hc : c ∈ n.children)
    (names : List (List UInt8)) : n.find? (c.name :: names) = c.find? names := by
  have hnodup := (h [] n rfl).1
  have hfind : (n.children.find? fun c' => decide (c'.name = c.name)) = some c := by
    generalize n.children = entries at hc hnodup
    induction entries with
    | nil => cases hc
    | cons c' entries ih =>
      rw [List.map_cons, List.nodup_cons] at hnodup
      rcases List.mem_cons.mp hc with rfl | hc
      · simp
      · have hne : c'.name ≠ c.name := fun heq => hnodup.1 (heq ▸ List.mem_map_of_mem hc)
        rw [List.find?_cons_of_neg (by simpa using hne), ih hc hnodup.2]
  rw [Node.find?, hfind, Option.bind_some]

theorem Node.WellFormed.child (h : n.WellFormed) {c : Node} (hc : c ∈ n.children) :
    c.WellFormed := fun names m hm => h (c.name :: names) m (by rw [h.find? hc, hm])

theorem Node.exists_of_find?_cons {name : List UInt8} {names : List (List UInt8)}
    (h : n.find? (name :: names) = some m) :
    ∃ c ∈ n.children, c.name = name ∧ c.find? names = some m := by
  obtain ⟨c, hfind, hm⟩ := Option.bind_eq_some_iff.mp h
  exact ⟨c, List.mem_of_find?_eq_some hfind, by simpa using List.find?_some hfind, hm⟩

theorem Node.wellFormed_of_children (hnodup : (n.children.map Node.name).Nodup)
    (h : ∀ c ∈ n.children, IsName c.name ∧ c.WellFormed) : n.WellFormed := by
  intro names m hm
  cases names with
  | nil =>
    cases hm
    exact ⟨hnodup, fun c hc => (h c hc).1⟩
  | cons name names =>
    obtain ⟨c, hc, -, hfind⟩ := Node.exists_of_find?_cons hm
    exact (h c hc).2 names m hfind

theorem Node.wellFormed_file (name : List UInt8) (written : Int) :
    (Node.file name written).WellFormed :=
  Node.wellFormed_of_children List.nodup_nil fun _ hc => nomatch hc

/-- A depth that is listed. -/
def Within (maxDepth depth : Nat) : Prop := maxDepth = 0 ∨ depth ≤ maxDepth

/-- How a place below a path is listed. -/
def pathOf (path : List UInt8) (names : List (List UInt8)) (m : Node) : List UInt8 :=
  names.foldl combineImpl path ++ if m.isDirectory then [Str.slash] else []

theorem mem_getRecursiveChildren (n : Node) (h : n.WellFormed) (path : List UInt8) (depth : Nat) :
    stat ∈ getRecursiveChildren maxDepth path depth n ↔
      ∃ names m, names ≠ [] ∧ n.find? names = some m ∧ Within maxDepth (depth + names.length) ∧
        stat = ⟨pathOf path names m, m.written⟩ := by
  induction n using Node.inductEntries generalizing path depth with
  | file name written =>
    simp only [getRecursiveChildren, List.not_mem_nil, false_iff]
    rintro ⟨names, m, hne, hfind, -⟩
    cases names with
    | nil => exact hne rfl
    | cons name names =>
      obtain ⟨c, hc, -⟩ := Node.exists_of_find?_cons hfind
      cases hc
  | directory name written children ih =>
    rw [getRecursiveChildren]
    by_cases hdepth : 0 < maxDepth ∧ maxDepth ≤ depth
    · rw [if_pos hdepth]
      simp only [List.not_mem_nil, false_iff]
      rintro ⟨names, m, hne, -, hwithin, -⟩
      have hpos := List.length_pos_of_ne_nil hne
      rcases hwithin with hwithin | hwithin
      · omega
      · omega
    · rw [if_neg hdepth, mem_readEntries]
      constructor
      · rintro ⟨c, hc, rfl | hmem⟩
        · refine ⟨[c.name], c, List.cons_ne_nil _ _, h.find? hc [], ?_, rfl⟩
          simp only [Within, List.length_singleton]
          omega
        · obtain ⟨names, m, -, hfind, hwithin, rfl⟩ := (ih c hc (h.child hc) _ _).mp hmem
          refine ⟨c.name :: names, m, List.cons_ne_nil _ _, by rw [h.find? hc, hfind], ?_, rfl⟩
          rwa [List.length_cons, Nat.add_comm names.length, ← Nat.add_assoc]
      · rintro ⟨names, m, hne, hfind, hwithin, rfl⟩
        cases names with
        | nil => exact absurd rfl hne
        | cons name names =>
          obtain ⟨c, hc, rfl, hm⟩ := Node.exists_of_find?_cons hfind
          refine ⟨c, hc, ?_⟩
          cases names with
          | nil =>
            cases hm
            exact .inl rfl
          | cons name' names =>
            refine .inr ((ih c hc (h.child hc) _ _).mpr
              ⟨name' :: names, m, List.cons_ne_nil _ _, hm, ?_, rfl⟩)
            rwa [List.length_cons, Nat.add_comm _ 1, ← Nat.add_assoc] at hwithin

theorem Node.WellFormed.isName (h : n.WellFormed) {names : List (List UInt8)}
    (hfind : n.find? names = some m) : ∀ name ∈ names, IsName name := by
  induction names generalizing n with
  | nil => simp
  | cons name names ih =>
    obtain ⟨c, hc, rfl, hm⟩ := Node.exists_of_find?_cons hfind
    exact List.forall_mem_cons.mpr ⟨(h [] n rfl).2 c hc, ih (h.child hc) hm⟩

theorem segments_combineImpl {name : List UInt8} (h : IsName name) :
    segments (combineImpl path name) = segments path ++ [name] := by
  unfold combineImpl
  split
  · next hpath => rw [hpath, segments_nil, segments_singleton h, List.nil_append]
  · split
    · next hlast =>
      obtain ⟨path', rfl⟩ := List.getLast?_eq_some_iff.mp hlast
      rw [List.append_assoc, List.singleton_append, segments_append, segments_append,
        segments_nil, segments_singleton h, List.append_nil]
    · rw [segments_append, segments_singleton h]

theorem segments_foldl_combineImpl {names : List (List UInt8)}
    (h : ∀ name ∈ names, IsName name) :
    segments (names.foldl combineImpl path) = segments path ++ names := by
  induction names generalizing path with
  | nil => simp
  | cons name names ih =>
    rw [List.forall_mem_cons] at h
    rw [List.foldl_cons, ih h.2, segments_combineImpl h.1, List.append_assoc,
      List.singleton_append]

theorem segments_pathOf {names : List (List UInt8)} (h : ∀ name ∈ names, IsName name) (m : Node) :
    segments (pathOf path names m) = segments path ++ names := by
  unfold pathOf
  split
  · rw [segments_append, segments_nil, List.append_nil, segments_foldl_combineImpl h]
  · rw [List.append_nil, segments_foldl_combineImpl h]

theorem getLast?_combineImpl {name : List UInt8} (h : IsName name) :
    (combineImpl path name).getLast? ≠ some Str.slash := by
  have hlast : (combineImpl path name).getLast? = name.getLast? := by
    unfold combineImpl
    split
    · rfl
    · split
      · exact List.getLast?_append_of_ne_nil _ h.1
      · rw [← List.singleton_append, ← List.append_assoc]
        exact List.getLast?_append_of_ne_nil _ h.1
  rw [hlast]
  exact fun hslash => h.2 (List.mem_of_getLast? hslash)

/-- Only a directory is listed with a separator behind its path. -/
theorem getLast?_pathOf {names : List (List UInt8)} (h : ∀ name ∈ names, IsName name)
    (hne : names ≠ []) (m : Node) :
    (pathOf path names m).getLast? = some Str.slash ↔ m.isDirectory := by
  unfold pathOf
  cases m.isDirectory with
  | true => simp
  | false =>
    obtain ⟨names, name, rfl⟩ := List.eq_nil_or_concat names |>.resolve_left hne
    simpa using getLast?_combineImpl (h name (by simp))

/-- Two places below a path are listed apart. -/
theorem pathOf_inj {names names' : List (List UInt8)} {m' : Node}
    (h : ∀ name ∈ names, IsName name) (h' : ∀ name ∈ names', IsName name) (hne : names ≠ [])
    (heq : pathOf path names m = pathOf path names' m') :
    names = names' ∧ m.isDirectory = m'.isDirectory := by
  have hnames : names = names' := by
    have hsegments := congrArg segments heq
    rwa [segments_pathOf h, segments_pathOf h', List.append_cancel_left_eq] at hsegments
  subst hnames
  refine ⟨rfl, Bool.eq_iff_iff.mpr ?_⟩
  rw [← getLast?_pathOf h hne m, heq, getLast?_pathOf h hne m']

theorem pathOf_ne {names : List (List UInt8)} (h : ∀ name ∈ names, IsName name)
    (hne : names ≠ []) (m : Node) : pathOf path names m ≠ path := by
  intro heq
  have hsegments := congrArg segments heq
  rw [segments_pathOf h] at hsegments
  exact hne (List.append_right_eq_self.mp hsegments)

/-- An entry, and what is below it, is listed behind its name. -/
theorem segments_of_mem_entry {c : Node} {p : List UInt8} (h : c.WellFormed) (hc : IsName c.name)
    (hmem : p ∈ (getRecursiveChildren maxDepth (combineImpl path c.name) depth c).map
      FileStat.path) :
    ∃ names, names ≠ [] ∧ segments p = segments path ++ c.name :: names := by
  obtain ⟨stat, hstat, rfl⟩ := List.mem_map.mp hmem
  obtain ⟨names, m, hne, hfind, -, rfl⟩ := (mem_getRecursiveChildren c h _ depth).mp hstat
  refine ⟨names, hne, ?_⟩
  rw [segments_pathOf (h.isName hfind), segments_combineImpl hc, List.append_assoc,
    List.singleton_append]

theorem segments_entryPath {c : Node} (hc : IsName c.name) :
    segments (entryPath path c) = segments path ++ [c.name] :=
  segments_pathOf (List.forall_mem_singleton.mpr hc) c

/-- The entries of a directory are listed apart. -/
theorem segments_of_mem_readEntries {p : List UInt8}
    (h : ∀ c ∈ entries, c.WellFormed ∧ IsName c.name)
    (hmem : p ∈ (readEntries maxDepth path depth entries).map FileStat.path) :
    ∃ c ∈ entries, ∃ names, segments p = segments path ++ c.name :: names := by
  obtain ⟨stat, hstat, rfl⟩ := List.mem_map.mp hmem
  obtain ⟨c, hc, rfl | hbelow⟩ := mem_readEntries.mp hstat
  · exact ⟨c, hc, [], segments_entryPath (h c hc).2⟩
  · obtain ⟨names, -, hsegments⟩ :=
      segments_of_mem_entry (h c hc).1 (h c hc).2 (List.mem_map_of_mem hbelow)
    exact ⟨c, hc, names, hsegments⟩

theorem nodup_readEntries (h : ∀ c ∈ entries, c.WellFormed ∧ IsName c.name)
    (hnames : (entries.map Node.name).Nodup)
    (hbelow : ∀ c ∈ entries, ∀ path depth,
      ((getRecursiveChildren maxDepth path depth c).map FileStat.path).Nodup) :
    ((readEntries maxDepth path depth entries).map FileStat.path).Nodup := by
  induction entries with
  | nil => simp [readEntries]
  | cons c entries ih =>
    rw [List.forall_mem_cons] at h hbelow
    rw [List.map_cons, List.nodup_cons] at hnames
    have happart : ∀ {p : List UInt8} {names : List (List UInt8)},
        segments p = segments path ++ c.name :: names →
        p ∉ (readEntries maxDepth path depth entries).map FileStat.path := by
      intro p names hp hmem
      obtain ⟨c', hc', names', hp'⟩ := segments_of_mem_readEntries h.2 hmem
      rw [hp, List.append_cancel_left_eq, List.cons.injEq] at hp'
      exact hnames.1 (hp'.1 ▸ List.mem_map_of_mem hc')
    rw [readEntries, List.map_cons, List.map_append, List.nodup_cons, List.mem_append, not_or,
      List.nodup_append]
    refine ⟨⟨fun hmem => ?_, happart (segments_entryPath h.1.2)⟩, hbelow.1 _ _,
      ih h.2 hnames.2 hbelow.2, ?_⟩
    · obtain ⟨names, hne, hp⟩ := segments_of_mem_entry h.1.1 h.1.2 hmem
      rw [segments_entryPath h.1.2, List.append_cancel_left_eq, List.cons.injEq] at hp
      exact hne hp.2.symm
    · rintro p hmem _ hmem' rfl
      obtain ⟨names, -, hp⟩ := segments_of_mem_entry h.1.1 h.1.2 hmem
      exact happart hp hmem'

/-- Every path is listed once. -/
theorem nodup_getRecursiveChildren (n : Node) (h : n.WellFormed) (path : List UInt8)
    (depth : Nat) : ((getRecursiveChildren maxDepth path depth n).map FileStat.path).Nodup := by
  induction n using Node.inductEntries generalizing path depth with
  | file name written => simp [getRecursiveChildren]
  | directory name written children ih =>
    rw [getRecursiveChildren]
    split
    · simp
    · exact nodup_readEntries (fun c hc => ⟨h.child hc, (h [] _ rfl).2 c hc⟩) (h [] _ rfl).1
        fun c hc => ih c hc (h.child hc)

end Listing

/-! ## Sorted listings -/

theorem FileStat.key_inj {a b : FileStat} : a.key = b.key ↔ a.path = b.path :=
  (List.map_injective_iff.mpr fun _ _ => UInt8.toNat_inj.mp).eq_iff

theorem FileStat.mem_map_key {file : FileStat} {files : List FileStat} :
    file.key ∈ files.map FileStat.key ↔ file.path ∈ files.map FileStat.path := by
  simp only [List.mem_map, FileStat.key_inj]

theorem FileStat.nodup_path {files : List FileStat} (h : SortedBy FileStat.key files) :
    (files.map FileStat.path).Nodup := by
  refine List.pairwise_map.mpr (h.imp fun hlt heq => ?_)
  exact hlt.ne (FileStat.key_inj.mpr heq)

namespace Snapshot

variable {S S' : Snapshot} {path p : List UInt8} {names : List (List UInt8)} {m m' : Node}
  {maxDepth : Nat} {t : Int}

/-- What the names lead to from the watched path. -/
def at? (S : Snapshot) (names : List (List UInt8)) : Option Node := S.node.bind (Node.find? names)

theorem isName_of_at? (h : S.at? names = some m) : ∀ name ∈ names, IsName name := by
  obtain ⟨n, hn, hfind⟩ := Option.bind_eq_some_iff.mp h
  exact (S.wellFormed n hn).isName hfind

/-- What is below the watched path, with its last write. -/
def Below (S : Snapshot) (path : List UInt8) (maxDepth : Nat) (p : List UInt8) (t : Int) : Prop :=
  ∃ names m, names ≠ [] ∧ S.at? names = some m ∧ Within maxDepth names.length ∧
    p = pathOf path names m ∧ t = m.written

/-- At another time the same path is the same place, with what is there then. -/
theorem below_pathOf (h : S'.at? names = some m') (hne : names ≠ []) :
    S.Below path maxDepth (pathOf path names m') t ↔ Within maxDepth names.length ∧
      ∃ m, S.at? names = some m ∧ m.isDirectory = m'.isDirectory ∧ t = m.written := by
  constructor
  · rintro ⟨names', m, hne', hm, hwithin, heq, ht⟩
    obtain ⟨rfl, hdirectory⟩ := pathOf_inj (isName_of_at? h) (isName_of_at? hm) hne heq
    exact ⟨hwithin, m, hm, hdirectory.symm, ht⟩
  · rintro ⟨hwithin, m, hm, hdirectory, ht⟩
    exact ⟨names, m, hne, hm, hwithin, by rw [pathOf, pathOf, hdirectory], ht⟩

theorem Below.ne (h : S.Below path maxDepth p t) : p ≠ path := by
  obtain ⟨names, m, hne, hm, -, rfl, -⟩ := h
  exact pathOf_ne (isName_of_at? hm) hne m

theorem isDir_of_at? (h : S.at? names = some m) (hne : names ≠ []) : S.isDir = true := by
  obtain ⟨n, hn, hfind⟩ := Option.bind_eq_some_iff.mp h
  obtain ⟨name, names, rfl⟩ := List.exists_cons_of_ne_nil hne
  obtain ⟨c, hc, -⟩ := Node.exists_of_find?_cons hfind
  cases n with
  | file name written => cases hc
  | directory name written children => simp [isDir, hn, Node.isDirectory]

theorem Below.isDir (h : S.Below path maxDepth p t) : S.isDir = true := by
  obtain ⟨names, m, hne, hm, -⟩ := h
  exact isDir_of_at? hm hne

end Snapshot

section MapPathInto

variable {S : Snapshot} {path : List UInt8} {maxDepth : UInt32} {file : FileStat}

theorem mem_mapPathInto : file ∈ mapPathInto S path maxDepth ↔
    S.Below path maxDepth.toNat file.path file.lastAccessed := by
  unfold mapPathInto Snapshot.Below Snapshot.at?
  cases hnode : S.node with
  | none => simp
  | some n =>
    have hmem : file ∈ getRecursiveChildren maxDepth.toNat path 0 n ↔ _ :=
      mem_getRecursiveChildren n (S.wellFormed n hnode) path 0
    have hlisted : file ∈ (if n.isDirectory then
          (getRecursiveChildren maxDepth.toNat path 0 n).mergeSort FileStat.le else []) ↔
        file ∈ getRecursiveChildren maxDepth.toNat path 0 n := by
      cases n with
      | file name written => simp [Node.isDirectory, getRecursiveChildren]
      | directory name written children => simp [Node.isDirectory]
    simp only [hlisted, hmem, Nat.zero_add, Option.bind_some]
    constructor
    · rintro ⟨names, m, hne, hfind, hwithin, rfl⟩
      exact ⟨names, m, hne, hfind, hwithin, rfl, rfl⟩
    · rintro ⟨names, m, hne, hfind, hwithin, hpath, hwritten⟩
      exact ⟨names, m, hne, hfind, hwithin, by rw [← hpath, ← hwritten]⟩

theorem FileStat.pairwise_mergeSort (files : List FileStat) :
    (files.mergeSort FileStat.le).Pairwise fun a b => a.key ≤ b.key := by
  have hsorted : (files.mergeSort FileStat.le).Pairwise fun a b => FileStat.le a b := by
    apply List.pairwise_mergeSort
    · intro a b c hab hbc
      exact decide_eq_true (le_trans (of_decide_eq_true hab) (of_decide_eq_true hbc))
    · intro a b
      simpa [FileStat.le] using le_total a.key b.key
  exact hsorted.imp fun hle => of_decide_eq_true hle

theorem sortedBy_mergeSort {files : List FileStat} (h : (files.map FileStat.path).Nodup) :
    SortedBy FileStat.key (files.mergeSort FileStat.le) := by
  have hnodup : ((files.mergeSort FileStat.le).map FileStat.path).Nodup :=
    ((List.mergeSort_perm files FileStat.le).map FileStat.path).nodup_iff.mpr h
  refine (FileStat.pairwise_mergeSort files).imp₂ (fun a b hle hne => ?_)
    (List.pairwise_map.mp hnodup)
  exact lt_of_le_of_ne hle fun hkey => hne (FileStat.key_inj.mp hkey)

theorem sortedBy_mapPathInto : SortedBy FileStat.key (mapPathInto S path maxDepth) := by
  unfold mapPathInto
  split
  · exact List.Pairwise.nil
  · next n hnode =>
    split
    · exact sortedBy_mergeSort (nodup_getRecursiveChildren n (S.wellFormed n hnode) path 0)
    · exact List.Pairwise.nil

theorem mem_map_mapPathInto {p : List UInt8} :
    p ∈ (mapPathInto S path maxDepth).map FileStat.path ↔
      ∃ t, S.Below path maxDepth.toNat p t := by
  rw [List.mem_map]
  constructor
  · rintro ⟨file, hfile, rfl⟩
    exact ⟨_, mem_mapPathInto.mp hfile⟩
  · rintro ⟨t, ht⟩
    exact ⟨⟨p, t⟩, mem_mapPathInto.mpr ht, rfl⟩

end MapPathInto

/-! ## What a run lists -/

section Changed

variable {files oldFiles sameFiles : List FileStat} {file : FileStat}

theorem lastWrite_eq (h : (files.map FileStat.path).Nodup) (hmem : file ∈ files) :
    lastWrite files file.path = file.lastAccessed := by
  have hsome : (files.find? fun other => other.path = file.path).isSome :=
    List.find?_isSome.mpr ⟨file, hmem, by simp⟩
  obtain ⟨found, hfound⟩ := Option.isSome_iff_exists.mp hsome
  have hpath : found.path = file.path := by simpa using List.find?_some hfound
  have heq : found = file :=
    List.inj_on_of_nodup_map h (List.mem_of_find?_eq_some hfound) hmem hpath
  rw [lastWrite, hfound, heq]
  rfl

/-- The walk finds every file that is still there. -/
theorem changedFiles_eq (hsub : sameFiles.Sublist oldFiles)
    (hnodup : (oldFiles.map FileStat.path).Nodup) :
    changedFiles files oldFiles sameFiles = (sameFiles.filter fun same =>
      decide (same.lastAccessed ≠ lastWrite files same.path)).map FileStat.path := by
  induction sameFiles generalizing oldFiles with
  | nil => simp [changedFiles]
  | cons same sameFiles ih =>
    obtain ⟨before, after, rfl, hmem, hafter⟩ := List.cons_sublist_iff.mp hsub
    obtain ⟨skipped, rest, rfl⟩ := List.append_of_mem hmem
    rw [List.append_assoc, List.cons_append] at hnodup
    have hskipped : ∀ old ∈ skipped, decide (old.path ≠ same.path) = true := by
      intro old hold
      rw [List.map_append, List.nodup_append] at hnodup
      simpa using hnodup.2.2 _ (List.mem_map_of_mem hold) same.path (by simp)
    have hdrop : ((skipped ++ same :: rest) ++ after).dropWhile
        (fun old => decide (old.path ≠ same.path)) = same :: (rest ++ after) := by
      rw [List.append_assoc, List.dropWhile_append_of_pos hskipped, List.cons_append,
        List.dropWhile_cons_of_neg (by simp)]
    have hnodup' : ((same :: (rest ++ after)).map FileStat.path).Nodup :=
      hnodup.sublist ((List.sublist_append_right _ _).map _)
    have hsub' : sameFiles.Sublist (same :: (rest ++ after)) :=
      (hafter.trans (List.sublist_append_right _ _)).cons same
    rw [changedFiles, hdrop]
    simp only [ih hsub' hnodup']
    by_cases hne : same.lastAccessed ≠ lastWrite files same.path
    · rw [if_pos hne, List.filter_cons_of_pos (by simpa using hne), List.map_cons]
    · rw [if_neg hne, List.filter_cons_of_neg (by simpa using hne)]

section Compared

variable {x : List UInt8} (hold : SortedBy FileStat.key oldFiles)
  (hnew : SortedBy FileStat.key files)

include hold hnew

theorem mem_map_setDifference : x ∈ (setDifference FileStat.key oldFiles files).map FileStat.path ↔
    x ∈ oldFiles.map FileStat.path ∧ x ∉ files.map FileStat.path := by
  rw [List.mem_map]
  simp only [mem_setDifference hold hnew, FileStat.mem_map_key]
  constructor
  · rintro ⟨file, ⟨hmem, hnot⟩, rfl⟩
    exact ⟨List.mem_map_of_mem hmem, hnot⟩
  · rintro ⟨hmem, hnot⟩
    obtain ⟨file, hfile, rfl⟩ := List.mem_map.mp hmem
    exact ⟨file, ⟨hfile, hnot⟩, rfl⟩

theorem mem_map_setIntersection :
    x ∈ (setIntersection FileStat.key oldFiles files).map FileStat.path ↔
      x ∈ oldFiles.map FileStat.path ∧ x ∈ files.map FileStat.path := by
  rw [List.mem_map]
  simp only [mem_setIntersection hold hnew, FileStat.mem_map_key]
  constructor
  · rintro ⟨file, ⟨hmem, hmem'⟩, rfl⟩
    exact ⟨List.mem_map_of_mem hmem, hmem'⟩
  · rintro ⟨hmem, hmem'⟩
    obtain ⟨file, hfile, rfl⟩ := List.mem_map.mp hmem
    exact ⟨file, ⟨hfile, hmem'⟩, rfl⟩

/-- The changed files are those of both lists with another last write. -/
theorem mem_changedFiles :
    x ∈ changedFiles files oldFiles (setIntersection FileStat.key oldFiles files) ↔
      ∃ old ∈ oldFiles, ∃ file ∈ files, old.path = x ∧ file.path = x ∧
        old.lastAccessed ≠ file.lastAccessed := by
  rw [changedFiles_eq (setIntersection_sublist _ _ _) (FileStat.nodup_path hold)]
  simp only [List.mem_map, List.mem_filter, decide_eq_true_eq, mem_setIntersection hold hnew,
    FileStat.key_inj]
  constructor
  · rintro ⟨old, ⟨⟨hmem, file, hfile, hpath⟩, hne⟩, rfl⟩
    rw [← hpath, lastWrite_eq (FileStat.nodup_path hnew) hfile] at hne
    exact ⟨old, hmem, file, hfile, rfl, hpath, hne⟩
  · rintro ⟨old, hmem, file, hfile, rfl, hpath, hne⟩
    refine ⟨old, ⟨⟨hmem, file, hfile, hpath⟩, ?_⟩, rfl⟩
    rwa [← hpath, lastWrite_eq (FileStat.nodup_path hnew) hfile]

end Compared

end Changed

namespace FilePoller

variable {p : FilePoller} {S S' : Snapshot} {path x : List UInt8} {maxDepth : UInt64}

/-- A poller remembers the last snapshot. -/
structure Synced (p : FilePoller) (S : Snapshot) (path : List UInt8) (maxDepth : UInt64) :
    Prop where
  watchPath_eq : p.watchPath = path
  maxDepth_eq : p.maxDepth = maxDepth
  pathExists_eq : p.pathExists = S.pathExists
  lastModif_eq : p.lastModif = S.lastWrite
  last_eq : p.last = mapPathInto S path maxDepth.toUInt32

theorem synced_watch (hwatch : p.watchPath ≠ path) (hpath : path ≠ []) :
    Synced (p.watch S path maxDepth).2 S path maxDepth := by
  rw [watch, if_neg hwatch, if_neg hpath]
  refine ⟨rfl, rfl, rfl, ?_, rfl⟩
  cases hnode : S.node with
  | none => simp [Snapshot.pathExists, Snapshot.lastWrite, hnode]
  | some n => simp [Snapshot.pathExists, hnode]

/-- What is told about the watched path stands behind the rest. -/
theorem compareSelf_eq (p : FilePoller) (S : Snapshot) : p.compareSelf S =
    { p with
      created := p.created ++ if S.pathExists ∧ ¬ p.pathExists then [p.watchPath] else []
      removed := p.removed ++ if p.pathExists ∧ ¬ S.pathExists then [p.watchPath] else []
      changed := p.changed ++
        if S.pathExists = p.pathExists ∧ p.lastModif < S.lastWrite then [p.watchPath] else [] } := by
  unfold compareSelf
  cases p with
  | mk watchPath maxDepth pathExists lastModif last created removed changed =>
    by_cases hlt : lastModif < S.lastWrite <;>
      cases S.pathExists <;> cases pathExists <;> simp [hlt]

/-- A run of a poller that remembers the last snapshot. -/
theorem Synced.run_eq (h : Synced p S path maxDepth) (hpath : path ≠ []) : (p.run S').2 =
    { watchPath := path
      maxDepth := maxDepth
      pathExists := S'.pathExists
      lastModif := S'.lastWrite
      last := mapPathInto S' path maxDepth.toUInt32
      created := (if S'.isDir then (setDifference FileStat.key
          (mapPathInto S' path maxDepth.toUInt32)
          (setIntersection FileStat.key (mapPathInto S path maxDepth.toUInt32)
            (mapPathInto S' path maxDepth.toUInt32))).map FileStat.path else []) ++
        if S'.pathExists ∧ ¬ S.pathExists then [path] else []
      removed := (if S'.isDir then (setDifference FileStat.key
          (mapPathInto S path maxDepth.toUInt32)
          (mapPathInto S' path maxDepth.toUInt32)).map FileStat.path else []) ++
        if S.pathExists ∧ ¬ S'.pathExists then [path] else []
      changed := (if S'.isDir then changedFiles (mapPathInto S' path maxDepth.toUInt32)
          (mapPathInto S path maxDepth.toUInt32)
          (setIntersection FileStat.key (mapPathInto S path maxDepth.toUInt32)
            (mapPathInto S' path maxDepth.toUInt32)) else []) ++
        if S'.pathExists = S.pathExists ∧ S.lastWrite < S'.lastWrite then [path] else [] } := by
  have hne : p.watchPath ≠ [] := h.watchPath_eq ▸ hpath
  rw [FilePoller.run, if_neg hne]
  simp only [compareSelf_eq]
  split <;> simp only [compareFiles, h.watchPath_eq, h.maxDepth_eq, h.pathExists_eq, h.last_eq,
    h.lastModif_eq]

theorem Synced.run (h : Synced p S path maxDepth) (hpath : path ≠ []) :
    Synced (p.run S').2 S' path maxDepth := by
  rw [h.run_eq hpath]
  exact ⟨rfl, rfl, rfl, rfl, rfl⟩

theorem mem_ite_singleton {c : Prop} [Decidable c] :
    x ∈ (if c then [path] else []) ↔ x = path ∧ c := by
  split <;> simp_all

/-- A path stands behind a list of others. -/
theorem nodup_append_ite {l : List (List UInt8)} {c : Prop} [Decidable c] (hl : l.Nodup)
    (hpath : path ∉ l) : (l ++ if c then [path] else []).Nodup := by
  split
  · rw [← List.concat_eq_append]
    exact List.Nodup.concat hpath hl
  · rwa [List.append_nil]

theorem path_not_mem_mapPathInto {maxDepth : UInt32} :
    path ∉ (mapPathInto S path maxDepth).map FileStat.path := by
  rw [mem_map_mapPathInto]
  rintro ⟨t, ht⟩
  exact ht.ne rfl

/-- Some of the files that were listed, with the watched path behind them. -/
theorem nodup_listed {maxDepth : UInt32} {files : List FileStat} {b : Bool} {c : Prop}
    [Decidable c] (hsub : files.Sublist (mapPathInto S path maxDepth)) :
    ((if b then files.map FileStat.path else []) ++ if c then [path] else []).Nodup := by
  have hsub' := hsub.map FileStat.path
  apply nodup_append_ite
  · split
    · exact (FileStat.nodup_path sortedBy_mapPathInto).sublist hsub'
    · exact List.nodup_nil
  · split
    · exact fun hmem => path_not_mem_mapPathInto (hsub'.subset hmem)
    · exact List.not_mem_nil

variable (h : Synced p S path maxDepth) (hpath : path ≠ [])

include h hpath

theorem Synced.mem_created_run : x ∈ (p.run S').2.created ↔
    ((∃ t, S'.Below path maxDepth.toUInt32.toNat x t) ∧
      ¬ ∃ t, S.Below path maxDepth.toUInt32.toNat x t) ∨
    (x = path ∧ S'.pathExists ∧ ¬ S.pathExists) := by
  have hsorted : SortedBy FileStat.key (setIntersection FileStat.key
      (mapPathInto S path maxDepth.toUInt32) (mapPathInto S' path maxDepth.toUInt32)) :=
    sortedBy_mapPathInto.sublist (setIntersection_sublist _ _ _)
  rw [h.run_eq hpath, List.mem_append, mem_ite_singleton]
  refine or_congr_left ?_
  split
  · rw [mem_map_setDifference sortedBy_mapPathInto hsorted,
      mem_map_setIntersection sortedBy_mapPathInto sortedBy_mapPathInto]
    simp only [mem_map_mapPathInto]
    refine and_congr_right fun hlisted => not_congr ?_
    exact and_iff_left hlisted
  · next hdir =>
    simp only [List.not_mem_nil, false_iff]
    rintro ⟨⟨t, ht⟩, -⟩
    exact hdir ht.isDir

theorem Synced.mem_removed_run : x ∈ (p.run S').2.removed ↔
    (S'.isDir ∧ (∃ t, S.Below path maxDepth.toUInt32.toNat x t) ∧
      ¬ ∃ t, S'.Below path maxDepth.toUInt32.toNat x t) ∨
    (x = path ∧ S.pathExists ∧ ¬ S'.pathExists) := by
  rw [h.run_eq hpath, List.mem_append, mem_ite_singleton]
  refine or_congr_left ?_
  split
  · next hdir =>
    rw [mem_map_setDifference sortedBy_mapPathInto sortedBy_mapPathInto]
    simp only [mem_map_mapPathInto, hdir, true_and]
  · next hdir => simp [hdir]

theorem Synced.mem_changed_run : x ∈ (p.run S').2.changed ↔
    (∃ t t', S.Below path maxDepth.toUInt32.toNat x t ∧
      S'.Below path maxDepth.toUInt32.toNat x t' ∧ t ≠ t') ∨
    (x = path ∧ S'.pathExists = S.pathExists ∧ S.lastWrite < S'.lastWrite) := by
  rw [h.run_eq hpath, List.mem_append, mem_ite_singleton]
  refine or_congr_left ?_
  split
  · rw [mem_changedFiles sortedBy_mapPathInto sortedBy_mapPathInto]
    simp only [mem_mapPathInto]
    constructor
    · rintro ⟨old, hold, file, hfile, rfl, hpath, hne⟩
      exact ⟨old.lastAccessed, file.lastAccessed, hold, hpath ▸ hfile, hne⟩
    · rintro ⟨t, t', ht, ht', hne⟩
      exact ⟨⟨x, t⟩, ht, ⟨x, t'⟩, ht', rfl, rfl, hne⟩
  · next hdir =>
    simp only [List.not_mem_nil, false_iff]
    rintro ⟨t, t', -, ht', -⟩
    exact hdir ht'.isDir

theorem Synced.nodup_created_run : (p.run S').2.created.Nodup := by
  rw [h.run_eq hpath]
  exact nodup_listed (setDifference_sublist _ _ _)

theorem Synced.nodup_removed_run : (p.run S').2.removed.Nodup := by
  rw [h.run_eq hpath]
  exact nodup_listed (setDifference_sublist _ _ _)

theorem Synced.nodup_changed_run : (p.run S').2.changed.Nodup := by
  rw [h.run_eq hpath, changedFiles_eq (setIntersection_sublist _ _ _)
    (FileStat.nodup_path sortedBy_mapPathInto)]
  exact nodup_listed (List.filter_sublist.trans (setIntersection_sublist _ _ _))

end FilePoller

/-! ## What the runs report -/

namespace Snapshot

variable {S S' : Snapshot} {path p : List UInt8} {names : List (List UInt8)} {m m' : Node}
  {maxDepth maxDepth' : Nat} {t : Int}

/-- A path of a snapshot, with its last write: the watched path, or one below it. -/
def Has (S : Snapshot) (path : List UInt8) (maxDepth : Nat) (p : List UInt8) (t : Int) : Prop :=
  (p = path ∧ ∃ n ∈ S.node, t = n.written) ∨ S.Below path maxDepth p t

def paths (S : Snapshot) (path : List UInt8) (maxDepth : Nat) : Set (List UInt8) :=
  {p | ∃ t, S.Has path maxDepth p t}

theorem mem_paths : p ∈ S.paths path maxDepth ↔
    (p = path ∧ S.pathExists) ∨ ∃ t, S.Below path maxDepth p t := by
  simp only [paths, Has, Set.mem_ofPred_eq, exists_or, exists_and_left, pathExists]
  cases S.node <;> simp

/-- Below the watched path one appears. -/
def Appears (S S' : Snapshot) (path : List UInt8) (maxDepth : Nat) (p : List UInt8) : Prop :=
  (∃ t, S'.Below path maxDepth p t) ∧ ¬ ∃ t, S.Below path maxDepth p t

/-- Below the watched path one is written. -/
def Written (S S' : Snapshot) (path : List UInt8) (maxDepth : Nat) (p : List UInt8) : Prop :=
  ∃ t t', S.Below path maxDepth p t ∧ S'.Below path maxDepth p t' ∧ t ≠ t'

theorem appears_pathOf (h : S'.at? names = some m') (hne : names ≠ []) :
    S.Appears S' path maxDepth (pathOf path names m') ↔ Within maxDepth names.length ∧
      ∀ m, S.at? names = some m → m.isDirectory ≠ m'.isDirectory := by
  simp only [Appears, below_pathOf h hne]
  constructor
  · rintro ⟨⟨t, hwithin, -⟩, hnot⟩
    exact ⟨hwithin, fun m hm heq => hnot ⟨m.written, hwithin, m, hm, heq, rfl⟩⟩
  · rintro ⟨hwithin, hnot⟩
    refine ⟨⟨m'.written, hwithin, m', h, rfl, rfl⟩, ?_⟩
    rintro ⟨t, -, m, hm, heq, -⟩
    exact hnot m hm heq

theorem written_pathOf (h : S'.at? names = some m') (hne : names ≠ []) :
    S.Written S' path maxDepth (pathOf path names m') ↔ Within maxDepth names.length ∧
      ∃ m, S.at? names = some m ∧ m.isDirectory = m'.isDirectory ∧ m.written ≠ m'.written := by
  simp only [Written, below_pathOf h hne]
  constructor
  · rintro ⟨t, t', ⟨hwithin, m, hm, heq, rfl⟩, ⟨-, m'', hm'', -, rfl⟩, hwritten⟩
    obtain rfl : m'' = m' := Option.some_inj.mp (hm''.symm.trans h)
    exact ⟨hwithin, m, hm, heq, hwritten⟩
  · rintro ⟨hwithin, m, hm, heq, hwritten⟩
    exact ⟨m.written, m'.written, ⟨hwithin, m, hm, heq, rfl⟩, ⟨hwithin, m', h, rfl, rfl⟩, hwritten⟩

theorem Appears.ne (h : S.Appears S' path maxDepth p) : p ≠ path :=
  h.1.elim fun _ ht => ht.ne

theorem Written.ne (h : S.Written S' path maxDepth p) : p ≠ path := by
  obtain ⟨t, t', ht, -⟩ := h
  exact ht.ne

/-- A path that is only in the second snapshot. -/
theorem mem_paths_not_mem_paths :
    p ∈ S'.paths path maxDepth ∧ p ∉ S.paths path maxDepth ↔
      S.Appears S' path maxDepth p ∨ (p = path ∧ S'.pathExists ∧ ¬ S.pathExists) := by
  rw [mem_paths, mem_paths, Appears]
  by_cases hp : p = path
  · subst hp
    have hbelow : ∀ S : Snapshot, ¬ ∃ t, S.Below p maxDepth p t := fun S ⟨t, ht⟩ => ht.ne rfl
    simp [hbelow]
  · simp [hp]

/-- A path of both snapshots with another last write. -/
theorem exists_has_ne :
    (∃ t t', S.Has path maxDepth p t ∧ S'.Has path maxDepth p t' ∧ t ≠ t') ↔
      S.Written S' path maxDepth p ∨
        (p = path ∧ ∃ n ∈ S.node, ∃ n' ∈ S'.node, n.written ≠ n'.written) := by
  unfold Has Written
  by_cases hp : p = path
  · subst hp
    have hbelow : ∀ (S : Snapshot) t, ¬ S.Below p maxDepth p t := fun S t ht => ht.ne rfl
    simp only [hbelow, or_false, true_and, false_and, exists_false, false_or]
    constructor
    · rintro ⟨t, t', ⟨n, hn, rfl⟩, ⟨n', hn', rfl⟩, hne⟩
      exact ⟨n, hn, n', hn', hne⟩
    · rintro ⟨n, hn, n', hn', hne⟩
      exact ⟨_, _, ⟨n, hn, rfl⟩, ⟨n', hn', rfl⟩, hne⟩
  · simp [hp]

theorem lastWrite_lt_lastWrite :
    (S'.pathExists = S.pathExists ∧ S.lastWrite < S'.lastWrite) ↔
      ∃ n ∈ S.node, ∃ n' ∈ S'.node, n.written < n'.written := by
  unfold pathExists lastWrite
  cases S.node <;> cases S'.node <;> simp

/-- Another limit makes no difference for what is told of the places that are within it,
when it makes none at these places. -/
theorem forall_place_iff {P : Nat → List UInt8 → Prop} {R : List (List UInt8) → Node → Prop}
    (hplace : ∀ depth names m', names ≠ [] → S'.at? names = some m' →
      (P depth (pathOf path names m') ↔ Within depth names.length ∧ R names m'))
    (hbelow : ∀ depth p, P depth p → ∃ t, S'.Below path depth p t) :
    (∀ p, P maxDepth p ↔ P maxDepth' p) ↔ ∀ names m', names ≠ [] → S'.at? names = some m' →
      R names m' → (Within maxDepth names.length ↔ Within maxDepth' names.length) := by
  constructor
  · intro h names m' hne hm' hR
    have hp := h (pathOf path names m')
    rwa [hplace _ _ _ hne hm', hplace _ _ _ hne hm', and_iff_left hR, and_iff_left hR] at hp
  · intro h p
    by_cases hlisted : ∃ names m', names ≠ [] ∧ S'.at? names = some m' ∧ p = pathOf path names m'
    · obtain ⟨names, m', hne, hm', rfl⟩ := hlisted
      rw [hplace _ _ _ hne hm', hplace _ _ _ hne hm']
      exact and_congr_left (h names m' hne hm')
    · have hnot : ∀ depth, ¬ P depth p := by
        intro depth hP
        obtain ⟨t, names, m', hne, hm', -, hp, -⟩ := hbelow depth p hP
        exact hlisted ⟨names, m', hne, hm', hp⟩
      exact iff_of_false (hnot _) (hnot _)

theorem forall_appears_iff :
    (∀ p, S.Appears S' path maxDepth p ↔ S.Appears S' path maxDepth' p) ↔
      ∀ names m', names ≠ [] → S'.at? names = some m' →
        (∀ m, S.at? names = some m → m.isDirectory ≠ m'.isDirectory) →
        (Within maxDepth names.length ↔ Within maxDepth' names.length) :=
  forall_place_iff (fun _ _ _ hne hm' => appears_pathOf hm' hne) fun _ _ happears => happears.1

theorem forall_written_iff :
    (∀ p, S.Written S' path maxDepth p ↔ S.Written S' path maxDepth' p) ↔
      ∀ names m', names ≠ [] → S'.at? names = some m' →
        (∃ m, S.at? names = some m ∧ m.isDirectory = m'.isDirectory ∧ m.written ≠ m'.written) →
        (Within maxDepth names.length ↔ Within maxDepth' names.length) :=
  forall_place_iff (fun _ _ _ hne hm' => written_pathOf hm' hne)
    fun _ _ ⟨_, t', _, ht', _⟩ => ⟨t', ht'⟩

/-- What a listing shows of a place. -/
def stat? (S : Snapshot) (names : List (List UInt8)) : Option (Bool × Int) :=
  (S.at? names).map fun m => (m.isDirectory, m.written)

/-- Another limit lists the same differences when it lists the same of the places
that differ. -/
theorem forall_differs_iff (path : List UInt8) :
    (∀ names, S.stat? names ≠ S'.stat? names →
      (Within maxDepth names.length ↔ Within maxDepth' names.length)) ↔
    (∀ p, S.Appears S' path maxDepth p ↔ S.Appears S' path maxDepth' p) ∧
    (∀ p, S'.Appears S path maxDepth p ↔ S'.Appears S path maxDepth' p) ∧
    (∀ p, S.Written S' path maxDepth p ↔ S.Written S' path maxDepth' p) := by
  rw [forall_appears_iff, forall_appears_iff, forall_written_iff]
  constructor
  · intro h
    refine ⟨fun names m' _ hm' hnot => h names ?_, fun names m _ hm hnot => h names ?_,
      fun names m' _ hm' hwritten => h names ?_⟩
    · rw [stat?, stat?, hm']
      cases hm : S.at? names with
      | none => simp
      | some m => simp [hnot m hm]
    · rw [stat?, stat?, hm]
      cases hm' : S'.at? names with
      | none => simp
      | some m' => simp [(hnot m' hm').symm]
    · obtain ⟨m, hm, -, hne⟩ := hwritten
      simp [stat?, hm, hm', hne]
  · rintro ⟨happears, hdisappears, hwritten⟩ names hdiffers
    by_cases hne : names = []
    · simp [hne, Within]
    · cases hm : S.at? names with
      | none =>
        cases hm' : S'.at? names with
        | none => exact absurd (by rw [stat?, stat?, hm, hm']) hdiffers
        | some m' => exact happears names m' hne hm' (by simp [hm])
      | some m =>
        cases hm' : S'.at? names with
        | none => exact hdisappears names m hne hm (by simp [hm'])
        | some m' =>
          by_cases hkind : m.isDirectory = m'.isDirectory
          · refine hwritten names m' hne hm' ⟨m, hm, hkind, fun heq => hdiffers ?_⟩
            simp [stat?, hm, hm', hkind, heq]
          · exact happears names m' hne hm' (by simpa [hm] using hkind)

end Snapshot

namespace FilePoller

/-- The lists of a run are the differences of two snapshots, and lead from the
paths of one to those of the other. -/
structure ReportsDifferences (path : List UInt8) (maxDepth : UInt64) (S S' : Snapshot)
    (p : FilePoller) : Prop where
  nodup_created : p.created.Nodup
  nodup_removed : p.removed.Nodup
  nodup_changed : p.changed.Nodup
  created : ∀ x, x ∈ p.created ↔
    x ∈ S'.paths path maxDepth.toNat ∧ x ∉ S.paths path maxDepth.toNat
  removed : ∀ x, x ∈ p.removed ↔
    x ∈ S.paths path maxDepth.toNat ∧ x ∉ S'.paths path maxDepth.toNat
  changed : ∀ x, x ∈ p.changed ↔
    ∃ t t', S.Has path maxDepth.toNat x t ∧ S'.Has path maxDepth.toNat x t' ∧ t ≠ t'
  applied : (S.paths path maxDepth.toNat \ {x | x ∈ p.removed}) ∪ {x | x ∈ p.created} =
    S'.paths path maxDepth.toNat

/-- Two snapshots that a run compares in full: files below the watched path are
compared when it is a directory, its own last write grows, and the limit may lose
its upper half. -/
structure Comparable (maxDepth : UInt64) (S S' : Snapshot) : Prop where
  isDir : S'.isDir ∨ ∀ n ∈ S.node, n.children = []
  le : ∀ n ∈ S.node, ∀ n' ∈ S'.node, n.written ≤ n'.written
  within : ∀ names, S.stat? names ≠ S'.stat? names →
    (Within maxDepth.toNat names.length ↔ Within maxDepth.toUInt32.toNat names.length)

/-- What every run reports is compared with the snapshot before it. -/
def ReportsAll (path : List UInt8) (maxDepth : UInt64) :
    Snapshot → List Snapshot → FilePoller → Prop
  | _, [], _ => True
  | S, S' :: Ss, p =>
      ReportsDifferences path maxDepth S S' (p.run S').2 ∧
        ReportsAll path maxDepth S' Ss (p.run S').2

section

variable {p : FilePoller} {S S' : Snapshot} {path : List UInt8} {maxDepth : UInt64}

theorem within_one (maxDepth : Nat) : Within maxDepth 1 := by
  unfold Within
  omega

/-- What is in a directory makes it one when it is listed the next time. -/
theorem isDir_of_appears {depth : Nat} {x : List UInt8}
    (h : S'.isDir ∨ ∀ n ∈ S.node, n.children = []) (hx : S'.Appears S path depth x) :
    S'.isDir := by
  obtain ⟨⟨t, names, m, hne, hm, -⟩, -⟩ := hx
  refine h.resolve_right fun hchildren => ?_
  obtain ⟨n, hn, hfind⟩ := Option.bind_eq_some_iff.mp hm
  obtain ⟨name, names, rfl⟩ := List.exists_cons_of_ne_nil hne
  obtain ⟨c, hc, -⟩ := Node.exists_of_find?_cons hfind
  rw [hchildren n hn] at hc
  cases hc

/-- A place that is told apart from the others. -/
theorem forall_or_eq_iff {α : Type*} {P Q : α → Prop} {a : α} {c d : Prop} (hP : ¬ P a)
    (hQ : ¬ Q a) : (∀ x, (P x ∨ x = a ∧ c) ↔ (Q x ∨ x = a ∧ d)) ↔
      (∀ x, P x ↔ Q x) ∧ (c ↔ d) := by
  constructor
  · intro h
    refine ⟨fun x => ?_, by simpa [hP, hQ] using h a⟩
    by_cases hx : x = a
    · subst hx
      exact iff_of_false hP hQ
    · simpa [hx] using h x
  · rintro ⟨hPQ, hcd⟩ x
    rw [hPQ, hcd]

variable (h : Synced p S path maxDepth) (hpath : path ≠ [])

include h hpath

theorem Synced.created_iff :
    (∀ x, x ∈ (p.run S').2.created ↔
      x ∈ S'.paths path maxDepth.toNat ∧ x ∉ S.paths path maxDepth.toNat) ↔
    ∀ x, S.Appears S' path maxDepth.toNat x ↔ S.Appears S' path maxDepth.toUInt32.toNat x := by
  simp only [h.mem_created_run hpath, Snapshot.mem_paths_not_mem_paths]
  refine (forall_or_eq_iff (fun happears => ?_) fun happears => ?_).trans ?_
  · exact Snapshot.Appears.ne happears rfl
  · exact Snapshot.Appears.ne happears rfl
  · rw [and_iff_left Iff.rfl]
    exact forall_congr' fun x => Iff.comm

theorem Synced.removed_iff :
    (∀ x, x ∈ (p.run S').2.removed ↔
      x ∈ S.paths path maxDepth.toNat ∧ x ∉ S'.paths path maxDepth.toNat) ↔
    ∀ x, S'.Appears S path maxDepth.toNat x ↔
      S'.isDir ∧ S'.Appears S path maxDepth.toUInt32.toNat x := by
  simp only [h.mem_removed_run hpath, Snapshot.mem_paths_not_mem_paths]
  refine (forall_or_eq_iff (fun happears => ?_) fun happears => ?_).trans ?_
  · exact Snapshot.Appears.ne happears.2 rfl
  · exact Snapshot.Appears.ne happears rfl
  · rw [and_iff_left Iff.rfl]
    exact forall_congr' fun x => Iff.comm

theorem Synced.changed_iff :
    (∀ x, x ∈ (p.run S').2.changed ↔
      ∃ t t', S.Has path maxDepth.toNat x t ∧ S'.Has path maxDepth.toNat x t' ∧ t ≠ t') ↔
    (∀ x, S.Written S' path maxDepth.toNat x ↔
      S.Written S' path maxDepth.toUInt32.toNat x) ∧
    ∀ n ∈ S.node, ∀ n' ∈ S'.node, n.written ≤ n'.written := by
  simp only [h.mem_changed_run hpath, Snapshot.exists_has_ne, Snapshot.lastWrite_lt_lastWrite]
  refine (forall_or_eq_iff (fun hwritten => ?_) fun hwritten => ?_).trans ?_
  · exact Snapshot.Written.ne hwritten rfl
  · exact Snapshot.Written.ne hwritten rfl
  · refine and_congr (forall_congr' fun x => Iff.comm) ⟨fun hiff n hn n' hn' => ?_, fun hle => ?_⟩
    · by_contra hlt
      obtain ⟨m, hm, m', hm', hmlt⟩ := hiff.mpr ⟨n, hn, n', hn', by omega⟩
      obtain rfl : m = n := Option.some_inj.mp (hm.symm.trans hn)
      obtain rfl : m' = n' := Option.some_inj.mp (hm'.symm.trans hn')
      exact hlt hmlt.le
    · constructor
      · rintro ⟨n, hn, n', hn', hlt⟩
        exact ⟨n, hn, n', hn', hlt.ne⟩
      · rintro ⟨n, hn, n', hn', hne⟩
        exact ⟨n, hn, n', hn', lt_of_le_of_ne (hle n hn n' hn') hne⟩

theorem Synced.reportsDifferences (hcomparable : Comparable maxDepth S S') :
    ReportsDifferences path maxDepth S S' (p.run S').2 := by
  obtain ⟨happears, hdisappears, hwritten⟩ :=
    (Snapshot.forall_differs_iff path).mp hcomparable.within
  have hcreated := (h.created_iff hpath).mpr happears
  have hremoved := (h.removed_iff hpath).mpr fun x => by
    rw [hdisappears x]
    exact (and_iff_right_of_imp (isDir_of_appears hcomparable.isDir)).symm
  refine ⟨h.nodup_created_run hpath, h.nodup_removed_run hpath, h.nodup_changed_run hpath,
    hcreated, hremoved, (h.changed_iff hpath).mpr ⟨hwritten, hcomparable.le⟩, ?_⟩
  ext x
  rw [Set.mem_union, Set.mem_sdiff, Set.mem_ofPred_eq, Set.mem_ofPred_eq, hcreated, hremoved]
  tauto

theorem Synced.comparable (hreports : ReportsDifferences path maxDepth S S' (p.run S').2) :
    Comparable maxDepth S S' := by
  have happears := (h.created_iff hpath).mp hreports.created
  have hremoved := (h.removed_iff hpath).mp hreports.removed
  obtain ⟨hwritten, hle⟩ := (h.changed_iff hpath).mp hreports.changed
  have hdir : S'.isDir ∨ ∀ n ∈ S.node, n.children = [] := by
    by_contra hnot
    rw [not_or] at hnot
    obtain ⟨hdir, hchildren⟩ := hnot
    push Not at hchildren
    obtain ⟨n, hn, hne⟩ := hchildren
    obtain ⟨c, hc⟩ := List.exists_mem_of_ne_nil _ hne
    have hat : S.at? [c.name] = some c := by
      rw [Snapshot.at?, Option.mem_def.mp hn, Option.bind_some, (S.wellFormed n hn).find? hc]
      rfl
    have hgone : S'.Appears S path maxDepth.toNat (pathOf path [c.name] c) :=
      (Snapshot.appears_pathOf hat (List.cons_ne_nil _ _)).mpr
        ⟨within_one _, fun m hm => absurd (Snapshot.isDir_of_at? hm (List.cons_ne_nil _ _)) hdir⟩
    exact hdir ((hremoved _).mp hgone).1
  refine ⟨hdir, hle, (Snapshot.forall_differs_iff path).mpr ⟨happears, ?_, hwritten⟩⟩
  intro x
  rw [hremoved x]
  exact and_iff_right_of_imp (isDir_of_appears hdir)

theorem Synced.reportsDifferences_iff :
    ReportsDifferences path maxDepth S S' (p.run S').2 ↔ Comparable maxDepth S S' :=
  ⟨h.comparable hpath, h.reportsDifferences hpath⟩

omit h in
theorem Synced.reportsAll_iff {Ss : List Snapshot} (h : Synced p S path maxDepth) :
    ReportsAll path maxDepth S Ss p ↔ List.IsChain (Comparable maxDepth) (S :: Ss) := by
  induction Ss generalizing p S with
  | nil => simp [ReportsAll]
  | cons S' Ss ih =>
    rw [ReportsAll, h.reportsDifferences_iff hpath, ih (h.run hpath), List.isChain_cons_cons]

end

/-- The runs report exactly the differences when any two snapshots in a row are
compared in full. -/
theorem reportsAll_watch_iff (p : FilePoller) (path : List UInt8) (maxDepth : UInt64)
    (S : Snapshot) (Ss : List Snapshot) (hwatch : p.watchPath ≠ path) (hpath : path ≠ []) :
    ReportsAll path maxDepth S Ss (p.watch S path maxDepth).2 ↔
      List.IsChain (Comparable maxDepth) (S :: Ss) :=
  (synced_watch hwatch hpath).reportsAll_iff hpath

/-- What the examples poll: nothing, and a directory with one file. -/
def gone : Snapshot := ⟨none, fun _ hn => nomatch hn⟩

@[inherit_doc gone]
def oneFile : Snapshot where
  node := some (.directory [97] 1 [.file [120] 1])
  wellFormed := by
    rintro n ⟨⟩
    refine Node.wellFormed_of_children (List.nodup_singleton _) fun c hc => ?_
    rw [List.mem_singleton.mp hc]
    exact ⟨⟨List.cons_ne_nil _ _, by decide⟩, Node.wellFormed_file _ _⟩

theorem reportsAll_watch_appears :
    ReportsAll [97] 0 gone [oneFile] (watch {} gone [97] 0).2 := by
  refine (reportsAll_watch_iff {} [97] 0 gone [oneFile] (by decide) (by decide)).mpr ?_
  rw [List.isChain_cons_cons, and_iff_left (List.IsChain.singleton _)]
  exact ⟨.inl rfl, fun n hn => (nomatch hn), fun names _ => Iff.rfl⟩

/-- A directory that is gone takes its file with it, and no run tells so. -/
theorem not_reportsAll_removed :
    ¬ ReportsAll [97] 0 oneFile [gone] (watch {} oneFile [97] 0).2 := by
  rw [(synced_watch (by decide) (by decide)).reportsAll_iff (by decide), List.isChain_cons_cons]
  rintro ⟨⟨hdir, -, -⟩, -⟩
  rcases hdir with hdir | hchildren
  · cases hdir
  · exact absurd (hchildren _ rfl) (List.cons_ne_nil _ _)

end FilePoller

end Sihd.Sys
