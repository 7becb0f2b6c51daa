import Mathlib.Data.List.Basic
import Mathlib.Data.List.Count
import Mathlib.Tactic.Common

/-!
# Strings

A string is the list of its bytes and an index into it is a natural number. An
escaped character is preceded by the escape character, unless the latter is
preceded by another one.
-/

namespace Sihd.Util.Str

/-- `"`. -/
abbrev quote : UInt8 := 34

/-- `\`. -/
abbrev backslash : UInt8 := 92

/-- `\n`. -/
abbrev lineFeed : UInt8 := 10

/-- `#`. -/
abbrev hash : UInt8 := 35

/-- `&`. -/
abbrev ampersand : UInt8 := 38

/-- `/`. -/
abbrev slash : UInt8 := 47

/-- `:`. -/
abbrev colon : UInt8 := 58

/-- `=`. -/
abbrev equal : UInt8 := 61

/-- `?`. -/
abbrev question : UInt8 := 63

/-- `@`. -/
abbrev atSign : UInt8 := 64

/-- `[`. -/
abbrev openBracket : UInt8 := 91

/-- `]`. -/
abbrev closeBracket : UInt8 := 93

/-- `"'[({<`. -/
def enclosesStart : List UInt8 := [34, 39, 91, 40, 123, 60]

/-- `"'])}>`. -/
def enclosesStop : List UInt8 := [34, 39, 93, 41, 125, 62]

def isSpace (c : UInt8) : Bool := c == 32 || (9 ≤ c && c ≤ 13)

def isPrint (c : UInt8) : Bool := 32 ≤ c && c ≤ 126

def isAllSpaces (s : List UInt8) : Bool := s.all isSpace

/-- `s.find(from, pos)`. -/
def find? (s pattern : List UInt8) (pos : Nat) : Option Nat :=
  (List.range' pos (s.length + 1 - pos)).find? fun i => pattern.isPrefixOf (s.drop i)

theorem find?_spec {s pattern : List UInt8} {pos i : Nat} (h : find? s pattern pos = some i) :
    pos ≤ i ∧ i ≤ s.length := by
  have hmem := List.mem_of_find?_eq_some h
  rw [List.mem_range'_1] at hmem
  omega

/-- The loop of `replace`: `last` is the end of the last occurrence and `i` the
next one. The search goes on one character after the end of an occurrence. -/
def replaceLoop (s pattern target : List UInt8) (last i : Nat) : List UInt8 :=
  (s.drop last).take (i - last) ++ target ++
    match h : find? s pattern (i + pattern.length + 1) with
    | none => s.drop (i + pattern.length)
    | some i' => replaceLoop s pattern target (i + pattern.length) i'
  termination_by s.length + 1 - i
  decreasing_by
    have := find?_spec h
    omega

def replace (s pattern target : List UInt8) : List UInt8 :=
  match find? s pattern 0 with
  | none => s
  | some i => replaceLoop s pattern target 0 i

def isEscapedChar (s : List UInt8) (index : Nat) (escape : UInt8) : Bool :=
  let isEscaped := decide (0 < index) && s[index - 1]? == some escape
  let isEscapeEscaped := decide (1 < index) && s[index - 2]? == some escape
  isEscaped && !isEscapeEscaped

def findCharNotEscaped (s : List UInt8) (charToFind escape : UInt8) : Option Nat :=
  (List.range s.length).find? fun i => s[i]? == some charToFind && !isEscapedChar s i escape

def stoppingEncloseOf (c : UInt8) : Option UInt8 :=
  (enclosesStart.idxOf? c).bind fun i => enclosesStop[i]?

/-- The results of `stopping_enclose_index`: -1, -2 and the index after the
enclosure. -/
inductive Enclosure
  | notOpened
  | neverEnds
  | closedAt (index : Nat)
  deriving DecidableEq

/-- `is_an_escape`: the enclosing character escapes the same one after it. -/
def isAnEscape (s : List UInt8) (index : Nat) (stop escape : UInt8) : Bool :=
  escape == stop && s[index + 1]? == some stop

def stoppingEncloseIndex (s : List UInt8) (index : Nat) (authorized : List UInt8)
    (escape : UInt8) : Enclosure :=
  match s[index]? with
  | none => .notOpened
  | some openEsc =>
      if authorized.contains openEsc = false then .notOpened
      else
        match stoppingEncloseOf openEsc with
        | none => .notOpened
        | some stop =>
            if isAnEscape s index stop escape || isEscapedChar s index escape then .notOpened
            else
              match (List.range' (index + 1) (s.length - (index + 1))).find? fun i =>
                  s[i]? == some stop && !isAnEscape s i stop escape &&
                    !isEscapedChar s i escape with
              | none => .neverEnds
              | some i => .closedAt (i + 1)

/-- The enclosure ends after its first character. -/
theorem lt_of_closedAt {s authorized : List UInt8} {index i : Nat} {escape : UInt8}
    (h : stoppingEncloseIndex s index authorized escape = .closedAt i) :
    index < i ∧ i ≤ s.length := by
  unfold stoppingEncloseIndex at h
  split at h
  · cases h
  · split at h
    · cases h
    · split at h
      · cases h
      · split at h
        · cases h
        · split at h
          · cases h
          · rename_i hfind
            have hmem := List.mem_of_find?_eq_some hfind
            rw [List.mem_range'_1] at hmem
            cases h
            omega

/-- `remove_escape_char`: the character after an escape is kept. -/
def removeEscapeChar (escape : UInt8) : List UInt8 → List UInt8
  | [] => []
  | [c] => if c = escape then [] else [c]
  | c :: c' :: s =>
      if c = escape then c' :: removeEscapeChar escape s
      else c :: removeEscapeChar escape (c' :: s)

end Sihd.Util.Str
