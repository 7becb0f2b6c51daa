import Mathlib.Algebra.Order.BigOperators.Group.List
import Sihd.Util.ArrayText

/-!
# What is known of a process

A `ProcessInfo` is read from the files of `/proc`. The record `stat` is read twice: the
name is what is between the first and the last parenthesis, and the start time is the
token at an index when the record is split at its blanks. The files `cmdline` and
`environ` are split at NUL characters.
-/

namespace Sihd.Sys.ProcessInfo

open Util Util.Str

/-- The directory of a process: `none` for what cannot be read. -/
structure Files where
  stat : Option (List UInt8)
  cmdline : Option (List UInt8)
  environ : Option (List UInt8)
  exe : Option (List UInt8)
  cwd : Option (List UInt8)

/-- What the system gives: the boot time in nanoseconds, `sysconf(_SC_CLK_TCK)` and the
directories of `/proc`. -/
structure Host where
  bootTime : Int
  clockTicks : Nat
  proc : Int → Option Files
  clockTicks_pos : 0 < clockTicks
  bootTime_inRange : IntType.int64.InRange bootTime

inductive Fault where
  | outOfRange
  | invalidArgument
  /-- A signed overflow. -/
  | overflow
  deriving DecidableEq

/-! ## The standard library -/

def npos : Nat := 2 ^ 64 - 1

/-- `+` on `size_t`. -/
def sizeAdd (m n : Nat) : Nat := (m + n) % 2 ^ 64

/-- `-` on `size_t`. -/
def sizeSub (m n : Nat) : Nat := (m + 2 ^ 64 - n) % 2 ^ 64

def findFirstOf (s : List UInt8) (c : UInt8) : Nat := (s.idxOf? c).getD npos

def findLastOf (s : List UInt8) (c : UInt8) : Nat :=
  ((s.reverse.idxOf? c).map (s.length - 1 - ·)).getD npos

def substr (s : List UInt8) (pos n : Nat) : Except Fault (List UInt8) :=
  if s.length < pos then .error .outOfRange else .ok ((s.drop pos).take n)

def narrow (z : Int) (fault : Fault) : Except Fault Int :=
  if IntType.int64.InRange z then .ok z else .error fault

/-- `std::stoll`: blanks and a sign are taken off, and anything may follow the digits. -/
def stoll (s : List UInt8) : Except Fault Int :=
  let (negative, s) := takeSign (s.dropWhile isSpace)
  let digits := s.takeWhile isDecimalDigit
  if digits = [] then .error .invalidArgument
  else narrow (if negative then -digitsValue digits else digitsValue digits) .outOfRange

end Sihd.Sys.ProcessInfo

namespace Sihd.Sys

open Util Util.Str ProcessInfo

structure ProcessInfo where
  pid : Int := -1
  processName : List UInt8 := []
  exePath : List UInt8 := []
  cwd : List UInt8 := []
  env : List (List UInt8) := []
  cmdLine : List (List UInt8) := []
  creationTime : Int := 0

namespace ProcessInfo

/-- `get_process_name_from_pid`. -/
def getProcessName (files : Files) : Except Fault (List UInt8) :=
  match files.stat with
  | none => .ok []
  | some line =>
      let start := sizeAdd (findFirstOf line 40) 1
      let stop := findLastOf line 41
      substr line start (sizeSub stop start)

def loadProcessName (files : Files) (p : ProcessInfo) : Except Fault ProcessInfo :=
  if p.processName = [] then do
    let name ← getProcessName files
    .ok { p with processName := name }
  else .ok p

def loadExe (files : Files) (p : ProcessInfo) : ProcessInfo :=
  { p with exePath := files.exe.getD [] }

/-- `Duration(std::chrono::seconds(seconds)) + boot_time`. -/
def sinceBoot (host : Host) (seconds : Int) : Except Fault Int := do
  let nano ← narrow (seconds * 1000000000) .overflow
  narrow (nano + host.bootTime) .overflow

def loadTime (host : Host) (files : Files) (p : ProcessInfo) : Except Fault ProcessInfo :=
  match ((files.stat.map (ArrayText.splits · 32)).getD [])[21]? with
  | none => .ok p
  | some startTime => do
      let ticks ← stoll startTime
      let time ← sinceBoot host (ticks.tdiv host.clockTicks)
      .ok { p with creationTime := time }

/-- `str::split` of a file that can be read. -/
def splitFile (file : Option (List UInt8)) : List (List UInt8) :=
  (file.map (ArrayText.splits · 0)).getD []

def loadSpecificProcessInfos (files : Files) (p : ProcessInfo) : ProcessInfo :=
  { p with
    cwd := files.cwd.getD []
    cmdLine := splitFile files.cmdline
    env := splitFile files.environ }

def load (host : Host) (pid : Int) (p : ProcessInfo) : Except Fault (Bool × ProcessInfo) :=
  if pid < 0 then .ok (false, p)
  else
    match host.proc pid with
    | none => .ok (false, p)
    | some files => do
        let p ← loadProcessName files { p with pid := pid }
        let p ← loadTime host files (loadExe files p)
        .ok (true, loadSpecificProcessInfos files p)

def ofPid (host : Host) (pid : Int) : Except Fault ProcessInfo :=
  (load host pid {}).map Prod.snd

/-! ## What the files show -/

/-- Strings that are each followed by a NUL character. -/
def nulTerminated (strings : List (List UInt8)) : List UInt8 := strings.flatMap (· ++ [0])

/-- What the record `stat` holds of a process; `fields` are the fields 4 to 21, and `rest`
is what follows the start time. -/
structure Stat where
  pid : Nat
  name : List UInt8
  state : UInt8
  fields : List Int
  startTime : Nat
  rest : List UInt8

/-- The record after the name. -/
def Stat.afterName (r : Stat) : List UInt8 :=
  32 :: r.state :: r.fields.flatMap (fun z => 32 :: decimalInt z) ++
    32 :: decimal r.startTime ++ r.rest

def Stat.text (r : Stat) : List UInt8 :=
  decimal r.pid ++ [32, 40] ++ r.name ++ 41 :: r.afterName

/-- A process, with the names of at most 15 characters that the system keeps. -/
structure Process extends Stat where
  args : List (List UInt8)
  env : List (List UInt8)
  exe : Option (List UInt8)
  cwd : Option (List UInt8)
  name_ne_nil : name ≠ []
  length_name : name.length ≤ 15
  nul_notMem_name : 0 ∉ name
  state_ne : state ≠ 32 ∧ state ≠ 41
  length_fields : fields.length = 18
  head_rest : ∀ c, rest.head? = some c → isDecimalDigit c = false
  parenthesis_notMem_rest : 41 ∉ rest
  length_text : toStat.text.length < 2 ^ 31
  nul_notMem_args : ∀ s ∈ args, 0 ∉ s
  nul_notMem_env : ∀ s ∈ env, 0 ∉ s

def Process.files (process : Process) : Files where
  stat := some process.text
  cmdline := some (nulTerminated process.args)
  environ := some (nulTerminated process.env)
  exe := process.exe
  cwd := process.cwd

/-- A process that is in `/proc`. -/
structure Running (host : Host) extends Process where
  listed : host.proc pid = some toProcess.files

/-- The nanoseconds of the boot and of the whole seconds from it to the start. -/
def Process.startsAt (host : Host) (process : Process) : Int :=
  host.bootTime + process.startTime / host.clockTicks * 1000000000

/-- What is read of a process is what it is. -/
def ReadsExactly {host : Host} (process : Running host) : Prop :=
  ∃ p, ofPid host process.pid = .ok p ∧ p.processName = process.name ∧
    p.cmdLine = process.args ∧ p.env = process.env ∧
    p.creationTime = process.startsAt host

/-- The number of runs of blanks. -/
def blankRuns : List UInt8 → Nat
  | [] => 0
  | c :: s => if c = 32 ∧ s.head? ≠ some 32 then blankRuns s + 1 else blankRuns s

/-- The field that is the token at the index 21: each run of blanks in the name puts
it off by one field from the start time. -/
def Stat.shownTime (r : Stat) : Int :=
  (r.fields ++ [(r.startTime : Int)]).getD (18 - blankRuns r.name) 0

/-- The strings that are split off. -/
def Separable (strings : List (List UInt8)) : Prop :=
  (∀ s ∈ strings, s ≠ []) ∧ (nulTerminated strings).length < 2 ^ 31

/-- The number that is shown gives the seconds of the start time, and they can be added
to the boot time. -/
structure ShowsTime (host : Host) (process : Process) : Prop where
  inRange : IntType.int64.InRange process.shownTime
  seconds : process.shownTime.tdiv host.clockTicks = process.startTime / host.clockTicks
  nano : (process.startTime : Int) / host.clockTicks * 1000000000 < 2 ^ 63
  sum : process.startsAt host < 2 ^ 63

/-! ## The name -/

section Name

variable {c : UInt8} {s t : List UInt8}

theorem idxOf?_append_cons (h : c ∉ s) : (s ++ c :: t).idxOf? c = some s.length := by
  induction s with
  | nil => simp [List.idxOf?_cons]
  | cons a s ih =>
    rw [List.mem_cons, not_or] at h
    rw [List.cons_append, List.idxOf?_cons, ih h.2, if_neg (by simpa using Ne.symm h.1)]
    rfl

theorem findFirstOf_append_cons (h : c ∉ s) : findFirstOf (s ++ c :: t) c = s.length := by
  rw [findFirstOf, idxOf?_append_cons h, Option.getD_some]

theorem findLastOf_append_cons (h : c ∉ t) : findLastOf (s ++ c :: t) c = s.length := by
  have hreverse : (s ++ c :: t).reverse = t.reverse ++ c :: s.reverse := by simp
  rw [findLastOf, hreverse, idxOf?_append_cons (by simpa using h), Option.map_some,
    Option.getD_some, List.length_reverse, List.length_append, List.length_cons]
  omega

theorem substr_append (s t u : List UInt8) :
    substr (s ++ (t ++ u)) s.length t.length = .ok t := by
  rw [substr, if_neg (by simp), List.drop_left, List.take_left]

/-- What is between the first parenthesis and the last one is the name. -/
theorem getProcessName_eq (files : Files) {name : List UInt8} (hstat : files.stat =
    some (s ++ 40 :: name ++ 41 :: t)) (hs : 40 ∉ s) (ht : 41 ∉ t)
    (hlength : (s ++ 40 :: name ++ 41 :: t).length < 2 ^ 64) :
    getProcessName files = .ok name := by
  have hfirst : findFirstOf (s ++ 40 :: name ++ 41 :: t) 40 = s.length := by
    rw [List.append_assoc, List.cons_append, findFirstOf_append_cons hs]
  have hlast : findLastOf (s ++ 40 :: name ++ 41 :: t) 41 = s.length + 1 + name.length := by
    rw [findLastOf_append_cons ht, List.length_append, List.length_cons]
    omega
  have hsplit : s ++ 40 :: name ++ 41 :: t = (s ++ [40]) ++ (name ++ 41 :: t) := by simp
  have hstart : sizeAdd s.length 1 = (s ++ [40]).length := by
    simp only [List.length_append, List.length_cons] at hlength
    rw [sizeAdd, List.length_append, List.length_singleton, Nat.mod_eq_of_lt (by omega)]
  have hsize : sizeSub (s.length + 1 + name.length) (s ++ [40]).length = name.length := by
    simp only [List.length_append, List.length_cons] at hlength
    rw [sizeSub, List.length_append, List.length_singleton]
    omega
  simp only [getProcessName, hstat, hfirst, hlast, hstart, hsize]
  rw [hsplit, substr_append]

theorem notMem_decimal (h : isDecimalDigit c = false) (n : Nat) : c ∉ decimal n := by
  intro hmem
  rw [isDecimalDigit_of_mem hmem] at h
  cases h

/-- There is no parenthesis after the name. -/
theorem parenthesis_notMem_afterName (process : Process) : 41 ∉ process.afterName := by
  have hfields : 41 ∉ process.fields.flatMap (fun z => 32 :: decimalInt z) := by
    simp only [List.mem_flatMap, List.mem_cons, not_exists, not_and, not_or]
    exact fun z _ => ⟨by decide, not_mem_decimalInt (by decide) (by decide)⟩
  simp only [Stat.afterName, List.mem_append, List.mem_cons, not_or]
  exact ⟨⟨⟨by decide, process.state_ne.2.symm, hfields⟩, by decide,
    notMem_decimal (by decide) _⟩, process.parenthesis_notMem_rest⟩

theorem getProcessName_files (process : Process) :
    getProcessName process.files = .ok process.name := by
  have htext : process.text =
      (decimal process.pid ++ [32]) ++ 40 :: process.name ++ 41 :: process.afterName := by
    simp [Stat.text]
  have hlength := process.length_text
  rw [htext] at hlength
  refine getProcessName_eq process.files (congrArg some htext) ?_
    (parenthesis_notMem_afterName process) (hlength.trans (by decide))
  rw [List.mem_append, not_or]
  exact ⟨notMem_decimal (by decide) _, by decide⟩

end Name

/-! ## The strings -/

section Strings

variable {strings : List (List UInt8)}

theorem pieces_nulTerminated (h : ∀ s ∈ strings, 0 ∉ s) :
    pieces [0] (nulTerminated strings) = strings ++ [[]] := by
  induction strings with
  | nil => simp [nulTerminated]
  | cons s strings ih =>
    rw [List.forall_mem_cons] at h
    rw [nulTerminated, List.flatMap_cons, List.append_assoc, List.singleton_append,
      pieces_char_append_cons h.1]
    exact congrArg (s :: ·) (ih h.2)

theorem length_nulTerminated (strings : List (List UInt8)) :
    (nulTerminated strings).length = (strings.map fun s => s.length + 1).sum := by
  simp [nulTerminated, List.length_flatMap]

/-- The pieces that are not empty take no more than the string and the end of it. -/
theorem sum_length_splits_le (data : List UInt8) (d : UInt8) :
    ((ArrayText.splits data d).map fun w => w.length + 1).sum ≤
      ArrayText.intSize data.length + 1 := by
  rw [ArrayText.splits, split_eq (List.cons_ne_nil d [])]
  calc _ ≤ ((pieces [d] (data.take (ArrayText.intSize data.length))).map
          fun w => w.length + 1).sum :=
        (List.filter_sublist.map _).sum_le_sum fun _ _ => Nat.zero_le _
    _ = (data.take (ArrayText.intSize data.length)).length + 1 := sum_length_pieces d _
    _ ≤ ArrayText.intSize data.length + 1 :=
        Nat.add_le_add_right (List.length_take_le _ _) 1

/-- What a file of `2 ^ 31` characters or more is split in is less than the file. -/
theorem splits_ne_of_length (hlength : 2 ^ 31 ≤ (nulTerminated strings).length) :
    ArrayText.splits (nulTerminated strings) 0 ≠ strings := by
  intro heq
  have hsum := sum_length_splits_le (nulTerminated strings) 0
  have hsize := ArrayText.intSize_lt (nulTerminated strings).length
  rw [heq, ← length_nulTerminated] at hsum
  have hleast : (nulTerminated strings).length = 2 ^ 31 := by omega
  rw [hleast] at hsum
  exact absurd hsum (by decide)

/-- The strings are split off exactly when none is empty and their file is not too long. -/
theorem splits_nulTerminated_iff (h : ∀ s ∈ strings, 0 ∉ s) :
    ArrayText.splits (nulTerminated strings) 0 = strings ↔ Separable strings := by
  by_cases hlength : (nulTerminated strings).length < 2 ^ 31
  · rw [ArrayText.splits, ArrayText.intSize_of_lt hlength, List.take_length,
      split_eq (List.cons_ne_nil 0 []), pieces_nulTerminated h, Separable, and_iff_left hlength]
    simp
  · exact iff_of_false (splits_ne_of_length (not_lt.mp hlength)) fun hsep => hlength hsep.2

end Strings

/-! ## The start time -/

section Time

variable {s t u w : List UInt8}

theorem blankRuns_cons_of_ne {c : UInt8} (hc : c ≠ 32) (s : List UInt8) :
    blankRuns (c :: s) = blankRuns s := by
  rw [blankRuns, if_neg fun h => hc h.1]

/-- Runs have a character between them. -/
theorem blankRuns_le (s : List UInt8) :
    2 * blankRuns s ≤ s.length + if s.head? = some 32 then 1 else 0 := by
  induction s with
  | nil => simp [blankRuns]
  | cons c s ih =>
    by_cases hc : c = 32 <;> by_cases hs : s.head? = some 32 <;>
      simp [blankRuns, hc, hs] at ih ⊢ <;> omega

theorem length_split_cons_cons {c a : UInt8} (hc : c ≠ 32) (ha : a ≠ 32) (s : List UInt8) :
    (split (c :: a :: s) [32]).length = (split (a :: s) [32]).length := by
  simp only [split_eq (List.cons_ne_nil (32 : UInt8) []), pieces_char_cons hc,
    pieces_char_cons ha]
  cases hp : pieces [32] s with
  | nil => exact absurd hp (pieces_ne_nil [32] s)
  | cons w l => simp

theorem split_blank_cons (s : List UInt8) : split (32 :: s) [32] = split s [32] := by
  have happend := split_append_cons 32 [] s
  rwa [split_eq (List.cons_ne_nil 32 []) [], pieces_nil] at happend

/-- The tokens of what a parenthesis ends: each is after a run of blanks or at the front. -/
theorem length_split_parenthesis (s : List UInt8) :
    (split (s ++ [41]) [32]).length + (if s.head? = some 32 then 1 else 0) =
      blankRuns s + 1 := by
  induction s with
  | nil =>
    rw [List.nil_append, split_of_not_mem (List.cons_ne_nil 41 []) (by decide)]
    rfl
  | cons c s ih =>
    by_cases hc : c = 32
    · subst hc
      rw [List.cons_append, split_blank_cons, List.head?_cons, if_pos rfl, blankRuns]
      by_cases hs : s.head? = some 32
      · rw [if_neg fun h => h.2 hs]
        rw [if_pos hs] at ih
        exact ih
      · rw [if_pos ⟨rfl, hs⟩]
        rw [if_neg hs, Nat.add_zero] at ih
        rw [ih]
    · rw [blankRuns_cons_of_ne hc, ← ih, List.head?_cons, if_neg (by simpa using hc),
        Nat.add_zero, List.cons_append]
      cases s with
      | nil => exact length_split_cons_cons hc (by decide) []
      | cons a s =>
        by_cases ha : a = 32
        · subst ha
          have happend := split_append_cons 32 [c] (s ++ [41])
          rw [split_of_not_mem (List.cons_ne_nil c []) (by simpa using Ne.symm hc)] at happend
          rw [List.head?_cons, if_pos rfl, List.cons_append, split_blank_cons]
          rw [List.singleton_append] at happend
          rw [happend, List.length_append, List.length_singleton, Nat.add_comm]
        · rw [List.head?_cons, if_neg (by simpa using ha), Nat.add_zero]
          exact length_split_cons_cons hc ha (s ++ [41])

/-- The tokens of a name in its parentheses. -/
theorem length_split_name (name : List UInt8) :
    (split (40 :: name ++ [41]) [32]).length = blankRuns name + 1 := by
  have hlength := length_split_parenthesis (40 :: name)
  rwa [List.head?_cons, if_neg (by decide), Nat.add_zero,
    blankRuns_cons_of_ne (by decide)] at hlength

theorem split_fields (hw : 32 ∉ w) (hne : w ≠ []) (fields : List Int) (t : List UInt8) :
    split (w ++ fields.flatMap (fun z => 32 :: decimalInt z) ++ 32 :: t) [32] =
      w :: fields.map decimalInt ++ split t [32] := by
  induction fields generalizing w with
  | nil =>
    rw [List.flatMap_nil, List.append_nil, split_append_cons, split_of_not_mem hne hw]
    rfl
  | cons z fields ih =>
    have hz : decimalInt z ≠ [] := by
      rw [decimalInt]
      split
      · exact List.cons_ne_nil _ _
      · exact decimal_ne_nil _
    have ih := ih (not_mem_decimalInt (z := z) (by decide) (by decide)) hz
    rw [List.flatMap_cons, List.cons_append, List.append_assoc, List.cons_append,
      split_append_cons, split_of_not_mem hne hw, ih]
    rfl

/-- The token of a number that something follows. -/
theorem split_decimal_append (n : Nat) (h : ∀ c, s.head? = some c → isDecimalDigit c = false) :
    ∃ u l, split (decimal n ++ s) [32] = (decimal n ++ u) :: l ∧
      ∀ c, u.head? = some c → isDecimalDigit c = false := by
  have hn : 32 ∉ decimal n := notMem_decimal (by decide) n
  by_cases hs : 32 ∈ s
  · obtain ⟨u, v, rfl, hu⟩ := List.eq_append_cons_of_mem hs
    refine ⟨u, split v [32], ?_, fun c hc => h c ?_⟩
    · rw [← List.append_assoc, split_append_cons, split_of_not_mem]
      · rfl
      · simp [decimal_ne_nil]
      · simp [hn, hu]
    · cases u with
      | nil => cases hc
      | cons a u => exact hc
  · refine ⟨s, [], split_of_not_mem ?_ ?_, h⟩
    · simp [decimal_ne_nil]
    · simp [hn, hs]

/-- The token at the index 21 is the field that is shown. -/
theorem getElem?_splits_text (process : Process) :
    ∃ u, (ArrayText.splits process.text 32)[21]? = some (decimalInt process.shownTime ++ u) ∧
      ∀ c, u.head? = some c → isDecimalDigit c = false := by
  obtain ⟨u, l, hstart, hu⟩ := split_decimal_append process.startTime process.head_rest
  have htext : process.text = decimal process.pid ++ 32 :: (40 :: process.name ++ [41] ++
      32 :: ([process.state] ++ process.fields.flatMap (fun z => 32 :: decimalInt z) ++
        32 :: (decimal process.startTime ++ process.rest))) := by
    simp [Stat.text, Stat.afterName]
  have hstate : 32 ∉ [process.state] := by
    simpa using process.state_ne.1.symm
  have hsplits : ArrayText.splits process.text 32 =
      (decimal process.pid :: (split (40 :: process.name ++ [41]) [32] ++ [[process.state]])) ++
        ((process.fields.map decimalInt ++ [decimal process.startTime ++ u]) ++ l) := by
    rw [ArrayText.splits, ArrayText.intSize_of_lt process.length_text, List.take_length, htext,
      split_append_cons, split_append_cons, split_fields hstate (List.cons_ne_nil _ _), hstart,
      split_of_not_mem (decimal_ne_nil _) (notMem_decimal (by decide) _)]
    simp
  have hfront : (decimal process.pid :: (split (40 :: process.name ++ [41]) [32] ++
      [[process.state]])).length = blankRuns process.name + 3 := by
    rw [List.length_cons, List.length_append, length_split_name, List.length_singleton]
  have hruns : blankRuns process.name ≤ 8 := by
    have hle := blankRuns_le process.name
    have hname := process.length_name
    split at hle <;> omega
  have hindex : 21 - (blankRuns process.name + 3) = 18 - blankRuns process.name := by omega
  rw [hsplits, List.getElem?_append_right (by rw [hfront]; omega), hfront, hindex, Stat.shownTime]
  have hfields := process.length_fields
  by_cases hzero : blankRuns process.name = 0
  · exact ⟨u, by simp [hzero, hfields, decimalInt], hu⟩
  · have hlt : 18 - blankRuns process.name < process.fields.length := by omega
    refine ⟨[], ?_, by rintro c ⟨⟩⟩
    rw [List.getElem?_append_left (by simp; omega), List.getElem?_append_left (by simpa using hlt)]
    simp [List.getD_eq_getElem?_getD, List.getElem?_append_left hlt,
      List.getElem?_eq_getElem hlt]

theorem isSpace_of_isDecimalDigit {c : UInt8} (h : isDecimalDigit c = true) :
    isSpace c = false := by
  simp only [isDecimalDigit, Bool.and_eq_true, decide_eq_true_eq, UInt8.le_iff_toNat_le] at h
  simp only [isSpace, Bool.or_eq_false_iff, Bool.and_eq_false_iff, decide_eq_false_iff_not,
    beq_eq_false_iff_ne, ne_eq, ← UInt8.toNat_inj, UInt8.le_iff_toNat_le]
  have hle : 48 ≤ c.toNat := h.1
  constructor
  · change ¬ c.toNat = 32
    omega
  · right
    change ¬ c.toNat ≤ 13
    omega

/-- A number has a digit or a sign in front. -/
theorem head?_decimalInt {z : Int} {c : UInt8} (h : (decimalInt z ++ u).head? = some c) :
    c = minus ∨ isDecimalDigit c = true := by
  rw [decimalInt] at h
  split at h
  · exact .inl (Option.some.inj h).symm
  · rw [List.head?_append_of_ne_nil _ (decimal_ne_nil _)] at h
    exact .inr (head?_decimal h)

theorem dropWhile_isSpace_decimalInt (z : Int) (u : List UInt8) :
    (decimalInt z ++ u).dropWhile isSpace = decimalInt z ++ u := by
  cases hs : decimalInt z ++ u with
  | nil => rfl
  | cons c s =>
    refine List.dropWhile_cons_of_neg (Bool.not_eq_true _ ▸ ?_)
    rcases head?_decimalInt (z := z) (u := u) (congrArg List.head? hs) with rfl | hc
    · rfl
    · exact isSpace_of_isDecimalDigit hc

theorem takeSign_decimalInt (z : Int) (u : List UInt8) :
    takeSign (decimalInt z ++ u) = (decide (z < 0), decimal z.natAbs ++ u) := by
  rw [decimalInt]
  split
  · rename_i hz
    rw [decide_eq_true hz]
    rfl
  · rename_i hz
    rw [decide_eq_false hz]
    refine takeSign_of_digit fun c hc => ?_
    rw [List.head?_append_of_ne_nil _ (decimal_ne_nil _)] at hc
    exact head?_decimal hc

/-- A number is read, if it is one of 64 bits, whatever follows it. -/
theorem stoll_decimalInt (z : Int) (h : ∀ c, u.head? = some c → isDecimalDigit c = false) :
    stoll (decimalInt z ++ u) = narrow z .outOfRange := by
  have hvalue : (if decide (z < 0) = true then -(z.natAbs : Int) else z.natAbs) = z := by
    split <;> rename_i hz <;> simp at hz <;> omega
  simp only [stoll, dropWhile_isSpace_decimalInt, takeSign_decimalInt, takeWhile_decimal h,
    decimal_ne_nil, digitsValue_decimal, hvalue, if_false]

theorem inRange_int64 {z : Int} : IntType.int64.InRange z ↔ -2 ^ 63 ≤ z ∧ z < 2 ^ 63 :=
  Iff.rfl

theorem narrow_eq_ok_iff {z z' : Int} {fault : Fault} :
    narrow z fault = .ok z' ↔ IntType.int64.InRange z ∧ z' = z := by
  rw [narrow]
  split <;> rename_i hz <;> simp [hz, eq_comm]

/-- What `load_time` reads of the record. -/
def readTime (host : Host) (process : Process) : Except Fault Int := do
  let ticks ← narrow process.shownTime .outOfRange
  sinceBoot host (ticks.tdiv host.clockTicks)

theorem loadTime_files (host : Host) (process : Process) (p : ProcessInfo) :
    loadTime host process.files p =
      (readTime host process).map fun time => { p with creationTime := time } := by
  obtain ⟨u, htoken, hu⟩ := getElem?_splits_text process
  have hstat : (process.files.stat.map (ArrayText.splits · 32)).getD [] =
      ArrayText.splits process.text 32 := rfl
  rw [loadTime, hstat, htoken]
  simp only [stoll_decimalInt _ hu, readTime]
  cases narrow process.shownTime .outOfRange with
  | error fault => rfl
  | ok ticks => cases hsince : sinceBoot host (ticks.tdiv host.clockTicks) <;>
      simp [hsince, bind, Except.bind, Except.map]

theorem sinceBoot_eq_ok_iff {host : Host} {seconds time : Int} :
    sinceBoot host seconds = .ok time ↔ IntType.int64.InRange (seconds * 1000000000) ∧
      IntType.int64.InRange (seconds * 1000000000 + host.bootTime) ∧
        time = seconds * 1000000000 + host.bootTime := by
  rw [sinceBoot]
  cases hnano : narrow (seconds * 1000000000) .overflow with
  | error fault =>
    have hnot : ¬ IntType.int64.InRange (seconds * 1000000000) := by
      intro hrange
      rw [narrow, if_pos hrange] at hnano
      cases hnano
    simp [hnot, bind, Except.bind]
  | ok nano =>
    obtain ⟨hrange, rfl⟩ := narrow_eq_ok_iff.mp hnano
    rw [and_iff_right hrange]
    exact narrow_eq_ok_iff

/-- The start time is read exactly when the number that is shown gives it. -/
theorem readTime_eq_startsAt_iff (host : Host) (process : Process) :
    readTime host process = .ok (process.startsAt host) ↔ ShowsTime host process := by
  have hboot := inRange_int64.mp host.bootTime_inRange
  have hticks : (0 : Int) ≤ process.startTime / host.clockTicks := by positivity
  rw [readTime]
  cases hnumber : narrow process.shownTime .outOfRange with
  | error fault =>
    refine iff_of_false nofun fun h => ?_
    rw [narrow, if_pos h.inRange] at hnumber
    cases hnumber
  | ok ticks =>
    obtain ⟨hrange, rfl⟩ := narrow_eq_ok_iff.mp hnumber
    refine Iff.trans sinceBoot_eq_ok_iff ?_
    rw [inRange_int64, inRange_int64, Process.startsAt]
    constructor
    · rintro ⟨hnano, hsum, hstarts⟩
      have hseconds : process.shownTime.tdiv host.clockTicks =
          process.startTime / host.clockTicks := by omega
      rw [hseconds] at hnano hsum
      exact ⟨hrange, hseconds, hnano.2, by rw [Process.startsAt]; omega⟩
    · rintro ⟨-, hseconds, hnano, hsum⟩
      rw [Process.startsAt] at hsum
      rw [hseconds]
      omega

end Time

/-! ## What is read -/

theorem ofPid_eq {host : Host} (process : Running host) : ∃ exePath cwd,
    ofPid host process.pid = (readTime host process.toProcess).map fun time =>
      { pid := process.pid
        processName := process.name
        exePath := exePath
        cwd := cwd
        env := splitFile (some (nulTerminated process.env))
        cmdLine := splitFile (some (nulTerminated process.args))
        creationTime := time } := by
  refine ⟨process.exe.getD [], process.cwd.getD [], ?_⟩
  have hname : ∀ p : ProcessInfo, p.processName = [] → loadProcessName process.files p =
      .ok { p with processName := process.name } := by
    intro p hp
    rw [loadProcessName, if_pos hp, getProcessName_files]
    rfl
  rw [ofPid, load, if_neg (by omega), process.listed]
  simp only [hname, loadTime_files, bind, Except.bind]
  cases readTime host process.toProcess <;> rfl

theorem readsExactly_iff_reads {host : Host} (process : Running host) :
    ReadsExactly process ↔
      ArrayText.splits (nulTerminated process.args) 0 = process.args ∧
        ArrayText.splits (nulTerminated process.env) 0 = process.env ∧
          readTime host process.toProcess = .ok (process.startsAt host) := by
  obtain ⟨exePath, cwd, hread⟩ := ofPid_eq process
  rw [ReadsExactly, hread]
  cases readTime host process.toProcess with
  | error fault => exact iff_of_false (by rintro ⟨p, hp, -⟩; cases hp) fun h => nomatch h.2.2
  | ok time => simp [Except.map, splitFile]

/-- A process is read as it is exactly when none of its strings is empty, the files of
its strings are not too long, and the field that is shown gives the seconds of the start
time. -/
theorem readsExactly_iff {host : Host} (process : Running host) :
    ReadsExactly process ↔ Separable process.args ∧ Separable process.env ∧
      ShowsTime host process.toProcess := by
  rw [readsExactly_iff_reads, splits_nulTerminated_iff process.nul_notMem_args,
    splits_nulTerminated_iff process.nul_notMem_env, readTime_eq_startsAt_iff]

/-- The start is in the second after the time of whole seconds. -/
theorem startsAt_within_second (host : Host) (process : Process) :
    (process.startsAt host - host.bootTime) * host.clockTicks ≤
        process.startTime * 1000000000 ∧
      process.startTime * 1000000000 <
        (process.startsAt host - host.bootTime + 1000000000) * host.clockTicks := by
  have hpos : (0 : Int) < host.clockTicks := Int.natCast_pos.mpr host.clockTicks_pos
  have hle := Int.ediv_mul_le (process.startTime : Int) hpos.ne'
  have hlt := Int.lt_ediv_add_one_mul_self (process.startTime : Int) hpos
  rw [Process.startsAt, add_sub_cancel_left]
  constructor <;> linarith

/-- The process `a b`, started at the tick 100. -/
def blankProcess : Process where
  pid := 7
  name := [97, 32, 98]
  state := 83
  fields := List.replicate 18 0
  startTime := 100
  rest := [10]
  args := [[97]]
  env := []
  exe := none
  cwd := none
  name_ne_nil := List.cons_ne_nil _ _
  length_name := by decide
  nul_notMem_name := by decide
  state_ne := by decide
  length_fields := rfl
  head_rest _ hc := by
    obtain rfl := Option.some.inj hc
    rfl
  parenthesis_notMem_rest := by decide
  length_text := by decide
  nul_notMem_args := by decide
  nul_notMem_env := by decide

def blankHost : Host where
  bootTime := 0
  clockTicks := 100
  proc _ := some blankProcess.files
  clockTicks_pos := by decide
  bootTime_inRange := by decide

def runningBlank : Running blankHost where
  toProcess := blankProcess
  listed := rfl

/-- The blank in the name puts the start time off. -/
theorem not_readsExactly_runningBlank : ¬ ReadsExactly runningBlank := by
  intro h
  have htime := ((readsExactly_iff_reads runningBlank).mp h).2.2
  have hshows := (readTime_eq_startsAt_iff blankHost blankProcess).mp htime
  exact absurd hshows.seconds (by decide)

end ProcessInfo

end Sihd.Sys
