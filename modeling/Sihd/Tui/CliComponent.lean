import Sihd.Lib.Cut
import Sihd.Lib.OrderedMap
import Sihd.Lib.Transition
import Mathlib.Data.List.DropRight
import Mathlib.Data.List.Sort

/-!
# The command line

A command line completes its last word with Tab, from a table of commands and of their
arguments, and searches its history with Up and Down. When there are several completions
it completes their common prefix first, and then one after the other. A completion goes
after the last space of the line as it is then.
-/

namespace Sihd.Tui

structure InputLine where
  content : List UInt8
  cursorPos : Nat

namespace InputLine

def setContent (content : List UInt8) : InputLine := ⟨content, content.length⟩

/-- A character is typed at the caret. -/
def insert (line : InputLine) (character : List UInt8) : InputLine :=
  ⟨line.content.take line.cursorPos ++ character ++ line.content.drop line.cursorPos,
    line.cursorPos + character.length⟩

end InputLine

abbrev CompletionMap := OrderedMap (List UInt8) (List (List UInt8))

/-- The state of a command line. `tabIdx` is none when no match is selected, and
`historyIdx` is -1 when no line of the history is shown. -/
structure Cli where
  completions : CompletionMap
  input : InputLine
  history : List (List UInt8)
  historyIdx : Int
  historyPrefix : List UInt8
  stashedInput : List UInt8
  tabMatches : List (List UInt8)
  tabIdx : Option Nat
  tabInputBefore : List UInt8

inductive Event where
  | tab
  | tabReverse
  | escape
  | arrowUp
  | arrowDown
  | enter
  | character (text : List UInt8)

/-- The text up to its last space, and with it. -/
def throughLastSpace (text : List UInt8) : List UInt8 := text.rdropWhile (· ≠ 32)

namespace Cli

def create (completions : CompletionMap) (history : List (List UInt8)) : Cli where
  completions := completions
  input := ⟨[], 0⟩
  history := history
  historyIdx := -1
  historyPrefix := []
  stashedInput := []
  tabMatches := []
  tabIdx := some 0
  tabInputBefore := []

def buildMatches (c : Cli) : Cli :=
  let text := c.input.content
  let found :=
    if 32 ∈ text then
      match c.completions.find (text.takeWhile (· ≠ 32)) with
      | some args => args.filter fun arg => text.rtakeWhile (· ≠ 32) <+: arg
      | none => []
    else (c.completions.entries.map Prod.fst).filter fun cmd => text <+: cmd
  { c with tabMatches := found.insertionSort (· ≤ ·), tabIdx := some 0 }

def longestCommonPrefix : List (List UInt8) → List UInt8
  | [] => []
  | m :: ms => (m :: ms).foldl commonPrefix m

def applyCompletion (c : Cli) (text : List UInt8) : Cli :=
  { c with input := .setContent (throughLastSpace c.input.content ++ text) }

/-- The match that Tab or Shift-Tab selects of a number of them. -/
def nextIdx (reverse : Bool) (n : Nat) : Option Nat → Nat
  | none => if reverse then n - 1 else 0
  | some i => if reverse then (if i = 0 then n - 1 else i - 1) else (i + 1) % n

def handleTab (c : Cli) (reverse : Bool) : Cli :=
  match c.tabMatches with
  | [] =>
      let c := { c with tabInputBefore := c.input.content }.buildMatches
      match c.tabMatches with
      | [] => c
      | [m] => { c.applyCompletion m with tabMatches := [], tabIdx := some 0 }
      | _ => { c.applyCompletion (longestCommonPrefix c.tabMatches) with tabIdx := none }
  | _ :: _ =>
      let i := nextIdx reverse c.tabMatches.length c.tabIdx
      { c with tabIdx := some i }.applyCompletion (c.tabMatches.getD i [])

def cancelCompletion (c : Cli) : Cli :=
  { c with input := .setContent c.tabInputBefore, tabMatches := [], tabIdx := some 0 }

/-- The beginning of the lines of the history that are searched for: a search begins with
the line as it is. -/
def searched (c : Cli) : List UInt8 :=
  if c.historyIdx < 0 then c.input.content else c.historyPrefix

/-- The lines of the history that are found, the latest first. -/
def found (c : Cli) : List (List UInt8) := c.history.reverse.filter fun line => c.searched <+: line

/-- Where a search goes. -/
def moved (c : Cli) (direction : Int) : Int :=
  max (-1) (min (c.found.length - 1) (c.historyIdx + direction))

/-- What a search shows: the line of the history, or the one that the search began with. -/
def shown (c : Cli) (direction : Int) : Option (List UInt8) :=
  if c.history = [] ∨ (c.historyIdx < 0 ∧ direction ≤ 0) then none
  else if c.found = [] then none
  else if c.moved direction < 0 then
    some (if c.historyIdx < 0 then c.input.content else c.stashedInput)
  else some (c.found.getD (c.moved direction).toNat [])

/-- A search keeps the line that it begins with. -/
def beginSearch (c : Cli) : Cli :=
  if c.historyIdx < 0 then
    { c with stashedInput := c.input.content, historyPrefix := c.input.content }
  else c

def navigateHistory (c : Cli) (direction : Int) : Cli :=
  if c.history = [] ∨ (c.historyIdx < 0 ∧ direction ≤ 0) then c
  else if c.found = [] then c.beginSearch
  else
    { c.beginSearch with
      historyIdx := c.moved direction
      input := .setContent
        (if c.moved direction < 0 then c.beginSearch.stashedInput
        else c.found.getD (c.moved direction).toNat []) }

/-- The history with an entered line, which is not empty and not the last one again. -/
def push (history : List (List UInt8)) (line : List UInt8) : List (List UInt8) :=
  if line = [] ∨ history.getLast? = some line then history
  else if 100 < (history ++ [line]).length then (history ++ [line]).tail
  else history ++ [line]

def onEnter (c : Cli) : Cli :=
  { c with
    tabMatches := []
    tabIdx := some 0
    history := push c.history c.input.content
    historyIdx := -1
    historyPrefix := []
    stashedInput := []
    input := ⟨[], 0⟩ }

/-- A character is typed, which is a change of the line. -/
def onChange (c : Cli) (text : List UInt8) : Cli :=
  { c with
    input := c.input.insert text
    tabMatches := []
    tabIdx := some 0
    historyIdx := -1
    historyPrefix := [] }

def onEvent (c : Cli) : Event → Cli
  | .tab => c.handleTab false
  | .tabReverse => c.handleTab true
  | .escape => if c.tabMatches = [] then c else c.cancelCompletion
  | .arrowUp => c.navigateHistory 1
  | .arrowDown => c.navigateHistory (-1)
  | .enter => c.onEnter
  | .character text => c.onChange text

/-- The text that a list of matches stands for: the match that is selected, or what all of
them begin with. -/
def IsCompletion (c : Cli) (text : List UInt8) : Prop :=
  match c.tabIdx with
  | some i => c.tabMatches[i]? = some text
  | none => IsLongestCommonPrefix text c.tabMatches

/-- What is selected has no space when it is completed again, and a search of the history
shows the line as it is while there is a list of matches. -/
def Keeps (c : Cli) : Event → Prop
  | .tab | .tabReverse => c.tabMatches ≠ [] → ∀ text, c.IsCompletion text → 32 ∉ text
  | .arrowUp => c.tabMatches ≠ [] → ∀ line ∈ c.shown 1, line = c.input.content
  | .arrowDown => c.tabMatches ≠ [] → ∀ line ∈ c.shown (-1), line = c.input.content
  | _ => True

end Cli

/-- A command line, with the line that it had when there was no list of matches last: the
line at the first Tab, when there is one. -/
structure World where
  cli : Cli
  firstLine : List UInt8

namespace World

def create (completions : CompletionMap) (history : List (List UInt8)) : World :=
  ⟨.create completions history, []⟩

def step (w : World) (event : Event) : World :=
  ⟨w.cli.onEvent event, if w.cli.tabMatches = [] then w.cli.input.content else w.firstLine⟩

/-- An event after which the completion is in its place, Tab and Shift-Tab take each other
back, and Escape has restored the line. -/
structure KeepsTyped (w : World) (event : Event) (w' : World) : Prop where
  completes : 2 ≤ w'.cli.tabMatches.length → ∃ text, w'.cli.IsCompletion text ∧
    w'.cli.input.content = throughLastSpace w'.firstLine ++ text
  inverse : ∀ i, w'.cli.tabMatches ≠ [] → w'.cli.tabIdx = some i → ∀ reverse,
    ((w'.cli.handleTab reverse).handleTab !reverse).tabIdx = some i
  restores : event = .escape → w.cli.tabMatches ≠ [] → w'.cli.input.content = w.firstLine

end World

/-! ## Completions -/

theorem throughLastSpace_eq_nil_iff {text : List UInt8} :
    throughLastSpace text = [] ↔ 32 ∉ text := by
  rw [throughLastSpace, List.rdropWhile_eq_nil_iff]
  constructor
  · intro h hmem
    simpa using h 32 hmem
  · intro h b hb
    have hne : b ≠ 32 := fun heq => h (heq ▸ hb)
    simpa using hne

theorem throughLastSpace_append (l text : List UInt8) :
    throughLastSpace (l ++ text) =
      if 32 ∈ text then l ++ throughLastSpace text else throughLastSpace l := by
  by_cases hspace : 32 ∈ text
  · have hne : throughLastSpace text ≠ [] := fun hnil =>
      throughLastSpace_eq_nil_iff.mp hnil hspace
    rw [if_pos hspace]
    rw [throughLastSpace, List.rdropWhile, ne_eq, List.reverse_eq_nil_iff] at hne
    simp only [throughLastSpace, List.rdropWhile, List.reverse_append, List.dropWhile_append]
    rw [if_neg (by simpa using hne), List.reverse_append, List.reverse_reverse]
  · have hnil := throughLastSpace_eq_nil_iff.mpr hspace
    rw [if_neg hspace]
    rw [throughLastSpace, List.rdropWhile, List.reverse_eq_nil_iff] at hnil
    simp only [throughLastSpace, List.rdropWhile, List.reverse_append, List.dropWhile_append]
    rw [if_pos (by rw [hnil]; rfl)]

/-- A completion goes after the last space of a line that another one ends exactly when
the other one has no space. -/
theorem throughLastSpace_eq_iff {first text : List UInt8} :
    throughLastSpace (throughLastSpace first ++ text) = throughLastSpace first ↔ 32 ∉ text := by
  rw [throughLastSpace_append]
  split
  · rename_i hspace
    rw [List.append_right_eq_self, throughLastSpace_eq_nil_iff]
  · rename_i hspace
    refine iff_of_true ?_ hspace
    exact List.rdropWhile_idempotent _ _

namespace Cli

theorem isLongestCommonPrefix_matches (m : List UInt8) (ms : List (List UInt8)) :
    IsLongestCommonPrefix (longestCommonPrefix (m :: ms)) (m :: ms) := by
  intro q
  rw [longestCommonPrefix, isLongestCommonPrefix_foldl m (m :: ms) q]
  simp

/-- A list of matches stands for one text. -/
theorem IsCompletion.eq {c : Cli} {text text' : List UInt8} (h : c.IsCompletion text)
    (h' : c.IsCompletion text') : text = text' := by
  rw [IsCompletion] at h h'
  split at h
  · rename_i i hi
    rw [hi] at h'
    exact Option.some.inj (h.symm.trans h')
  · rename_i hi
    rw [hi] at h'
    exact IsLongestCommonPrefix.eq h h'

/-! ## Tab -/

section Tab

variable {c : Cli} {n i : Nat}

theorem nextIdx_lt (hn : 0 < n) (reverse : Bool) {idx : Option Nat} (hidx : ∀ i ∈ idx, i < n) :
    nextIdx reverse n idx < n := by
  cases idx with
  | none =>
    rw [nextIdx]
    split <;> omega
  | some i =>
    have hi := hidx i rfl
    rw [nextIdx]
    split
    · split <;> omega
    · exact Nat.mod_lt _ hn

/-- One way and the other. -/
theorem nextIdx_nextIdx (hi : i < n) (reverse : Bool) :
    nextIdx (!reverse) n (some (nextIdx reverse n (some i))) = i := by
  cases reverse with
  | false =>
    simp only [nextIdx, Bool.not_false, if_true, Bool.false_eq_true, if_false]
    by_cases hlast : i + 1 = n
    · rw [hlast, Nat.mod_self, if_pos rfl]
      omega
    · rw [Nat.mod_eq_of_lt (by omega), if_neg (by omega)]
      omega
  | true =>
    simp only [nextIdx, Bool.not_true, if_true, Bool.false_eq_true, if_false]
    by_cases hzero : i = 0
    · rw [if_pos hzero, Nat.sub_add_cancel (by omega), Nat.mod_self, hzero]
    · rw [if_neg hzero, Nat.sub_add_cancel (by omega), Nat.mod_eq_of_lt hi]

/-- A Tab where there is a list selects one of the matches. -/
theorem handleTab_of_ne_nil (h : c.tabMatches ≠ []) (reverse : Bool) :
    c.handleTab reverse = { c with
      tabIdx := some (nextIdx reverse c.tabMatches.length c.tabIdx)
      input := .setContent (throughLastSpace c.input.content ++
        c.tabMatches.getD (nextIdx reverse c.tabMatches.length c.tabIdx) []) } := by
  obtain ⟨m, ms, hm⟩ := List.exists_cons_of_ne_nil h
  rw [handleTab]
  split
  · rename_i hnil
    exact absurd hnil h
  · rfl

theorem handleTab_tabMatches (h : c.tabMatches ≠ []) (reverse : Bool) :
    (c.handleTab reverse).tabMatches = c.tabMatches := by
  rw [handleTab_of_ne_nil h]

theorem handleTab_tabIdx (h : c.tabMatches ≠ []) (reverse : Bool) :
    (c.handleTab reverse).tabIdx = some (nextIdx reverse c.tabMatches.length c.tabIdx) := by
  rw [handleTab_of_ne_nil h]

theorem two_le_length {α : Type*} {l : List α} (hnil : l ≠ []) (hone : ∀ a, l ≠ [a]) :
    2 ≤ l.length := by
  cases l with
  | nil => exact absurd rfl hnil
  | cons a l =>
    cases l with
    | nil => exact absurd rfl (hone a)
    | cons b l => simp

/-- A Tab where there is no list leaves none, or makes one and completes the common
prefix. -/
theorem handleTab_of_nil (h : c.tabMatches = []) (reverse : Bool) :
    (c.handleTab reverse).tabMatches = [] ∨
      2 ≤ (c.handleTab reverse).tabMatches.length ∧ (c.handleTab reverse).tabIdx = none ∧
        (c.handleTab reverse).tabInputBefore = c.input.content ∧
          (c.handleTab reverse).input.content = throughLastSpace c.input.content ++
            longestCommonPrefix (c.handleTab reverse).tabMatches := by
  rw [handleTab]
  split
  · dsimp only
    split
    · rename_i hbuilt
      exact .inl hbuilt
    · exact .inl rfl
    · rename_i hnil hone
      exact .inr ⟨two_le_length hnil hone, rfl, rfl, rfl⟩
  · rename_i hcons
    cases h.symm.trans hcons

end Tab

/-! ## The history -/

theorem beginSearch_eq (c : Cli) : c.beginSearch.input = c.input ∧
    c.beginSearch.tabMatches = c.tabMatches ∧ c.beginSearch.tabIdx = c.tabIdx ∧
    c.beginSearch.tabInputBefore = c.tabInputBefore ∧
    c.beginSearch.stashedInput = if c.historyIdx < 0 then c.input.content else c.stashedInput := by
  rw [beginSearch]
  by_cases hfirst : c.historyIdx < 0
  · simp [hfirst]
  · simp [hfirst]

/-- A search of the history changes the line, and what it needs itself. -/
theorem navigateHistory_eq (c : Cli) (direction : Int) :
    (c.navigateHistory direction).input.content = (c.shown direction).getD c.input.content ∧
      (c.navigateHistory direction).tabMatches = c.tabMatches ∧
      (c.navigateHistory direction).tabIdx = c.tabIdx ∧
      (c.navigateHistory direction).tabInputBefore = c.tabInputBefore := by
  obtain ⟨hinput, hmatches, hidx, hbefore, hstashed⟩ := c.beginSearch_eq
  rw [navigateHistory, shown]
  by_cases hnone : c.history = [] ∨ (c.historyIdx < 0 ∧ direction ≤ 0)
  · rw [if_pos hnone, if_pos hnone]
    exact ⟨rfl, rfl, rfl, rfl⟩
  · rw [if_neg hnone, if_neg hnone]
    by_cases hfound : c.found = []
    · rw [if_pos hfound, if_pos hfound]
      exact ⟨congrArg InputLine.content hinput, hmatches, hidx, hbefore⟩
    · rw [if_neg hfound, if_neg hfound]
      refine ⟨?_, hmatches, hidx, hbefore⟩
      by_cases hback : c.moved direction < 0
      · simp [InputLine.setContent, hback, hstashed]
      · simp [InputLine.setContent, hback]

end Cli

namespace World

/-- A list of matches that stands for a text. -/
structure Listed (w : World) (text : List UInt8) : Prop where
  length : 2 ≤ w.cli.tabMatches.length
  idx : ∀ i ∈ w.cli.tabIdx, i < w.cli.tabMatches.length
  completion : w.cli.IsCompletion text
  before : w.cli.tabInputBefore = w.firstLine

/-- What holds of a command line between two events: if there is a list, the completion is
in its place. -/
def Sound (w : World) : Prop := w.cli.tabMatches ≠ [] →
  ∃ text, w.Listed text ∧ w.cli.input.content = throughLastSpace w.firstLine ++ text

theorem sound_create (completions : CompletionMap) (history : List (List UInt8)) :
    (create completions history).Sound := fun h => absurd rfl h

section Listed

variable {w w' : World} {event : Event} {text : List UInt8}

theorem Listed.ne_nil (h : w.Listed text) : w.cli.tabMatches ≠ [] := by
  intro hnil
  have hlength := h.length
  rw [hnil] at hlength
  cases hlength

theorem Listed.inverse (h : w.Listed text) {i : Nat} (hi : w.cli.tabIdx = some i)
    (reverse : Bool) : ((w.cli.handleTab reverse).handleTab !reverse).tabIdx = some i := by
  have hagain : (w.cli.handleTab reverse).tabMatches ≠ [] := by
    rw [Cli.handleTab_tabMatches h.ne_nil]
    exact h.ne_nil
  rw [Cli.handleTab_tabIdx hagain, Cli.handleTab_tabMatches h.ne_nil,
    Cli.handleTab_tabIdx h.ne_nil, hi]
  exact congrArg some (Cli.nextIdx_nextIdx (h.idx i hi) reverse)

/-- Where there is a list, all is kept exactly when the completion is in its place. -/
theorem Listed.keepsTyped_iff (h : w'.Listed text) (hescape : event ≠ .escape) :
    KeepsTyped w event w' ↔ w'.cli.input.content = throughLastSpace w'.firstLine ++ text := by
  constructor
  · intro hkeeps
    obtain ⟨text', htext', hcontent⟩ := hkeeps.completes h.length
    rwa [h.completion.eq htext']
  · intro hcontent
    refine ⟨fun _ => ⟨text, h.completion, hcontent⟩, fun i _ hi reverse => h.inverse hi reverse,
      fun heq => absurd heq hescape⟩

/-- Where there is no list, only Escape has something to keep. -/
theorem keepsTyped_of_nil (h : w'.cli.tabMatches = [])
    (hescape : event = .escape → w.cli.tabMatches ≠ [] → w'.cli.input.content = w.firstLine) :
    KeepsTyped w event w' where
  completes hlength := by
    rw [h] at hlength
    cases hlength
  inverse _ hne := absurd h hne
  restores := hescape

/-- A Tab where there is a list. -/
theorem Listed.handleTab (h : w.Listed text) (reverse : Bool) :
    Listed ⟨w.cli.handleTab reverse, w.firstLine⟩ (w.cli.tabMatches.getD
      (Cli.nextIdx reverse w.cli.tabMatches.length w.cli.tabIdx) []) := by
  have hlength := h.length
  have hlt := Cli.nextIdx_lt (by omega) reverse h.idx
  rw [Cli.handleTab_of_ne_nil h.ne_nil]
  refine ⟨hlength, fun i hi => ?_, ?_, h.before⟩
  · rwa [← Option.some.inj hi]
  · rw [List.getD_eq_getElem?_getD, List.getElem?_eq_getElem hlt]
    exact List.getElem?_eq_getElem hlt

/-- A Tab where there is none. -/
theorem listed_handleTab_of_nil (h : w.cli.tabMatches = []) (reverse : Bool) :
    (w.cli.handleTab reverse).tabMatches = [] ∨ ∃ text,
      Listed ⟨w.cli.handleTab reverse, w.cli.input.content⟩ text ∧
        (w.cli.handleTab reverse).input.content =
          throughLastSpace w.cli.input.content ++ text := by
  refine (Cli.handleTab_of_nil h reverse).imp_right ?_
  rintro ⟨hlength, hidx, hbefore, hcontent⟩
  refine ⟨_, ⟨hlength, ?_, ?_, hbefore⟩, hcontent⟩
  · dsimp only
    rw [hidx]
    nofun
  · rw [Cli.IsCompletion]
    dsimp only
    rw [hidx]
    obtain ⟨m, ms, hm⟩ := List.exists_cons_of_length_pos (Nat.lt_of_lt_of_le Nat.two_pos hlength)
    rw [hm]
    exact Cli.isLongestCommonPrefix_matches m ms

theorem Listed.navigateHistory (h : w.Listed text) (direction : Int) :
    Listed ⟨w.cli.navigateHistory direction, w.firstLine⟩ text := by
  obtain ⟨-, hmatches, hidx, hbefore⟩ := w.cli.navigateHistory_eq direction
  refine ⟨?_, ?_, ?_, hbefore.trans h.before⟩
  · exact hmatches ▸ h.length
  · dsimp only
    rw [hmatches, hidx]
    exact h.idx
  · have hcompletion := h.completion
    rw [Cli.IsCompletion] at hcompletion ⊢
    dsimp only
    rw [hmatches, hidx]
    exact hcompletion

end Listed

/-! ## Events -/

section Events

variable {w : World}

theorem step_of_ne_nil (h : w.cli.tabMatches ≠ []) (event : Event) :
    w.step event = ⟨w.cli.onEvent event, w.firstLine⟩ := by
  rw [step, if_neg h]

theorem step_of_nil (h : w.cli.tabMatches = []) (event : Event) :
    w.step event = ⟨w.cli.onEvent event, w.cli.input.content⟩ := by
  rw [step, if_pos h]

theorem keepsTyped_tab_iff (h : w.Sound) {event : Event} {reverse : Bool}
    (hevent : w.cli.onEvent event = w.cli.handleTab reverse) (hescape : event ≠ .escape) :
    KeepsTyped w event (w.step event) ↔
      (w.cli.tabMatches ≠ [] → ∀ text, w.cli.IsCompletion text → 32 ∉ text) := by
  by_cases hnil : w.cli.tabMatches = []
  · refine iff_of_true ?_ fun hne => absurd hnil hne
    rw [step_of_nil hnil, hevent]
    obtain hleft | ⟨text, hlisted, hcontent⟩ := listed_handleTab_of_nil hnil reverse
    · exact keepsTyped_of_nil hleft fun heq => absurd heq hescape
    · exact (hlisted.keepsTyped_iff hescape).mpr hcontent
  · obtain ⟨text, hlisted, hcontent⟩ := h hnil
    rw [step_of_ne_nil hnil, hevent, (hlisted.handleTab reverse).keepsTyped_iff hescape]
    have hnext : (w.cli.handleTab reverse).input.content =
        throughLastSpace (throughLastSpace w.firstLine ++ text) ++ w.cli.tabMatches.getD
          (Cli.nextIdx reverse w.cli.tabMatches.length w.cli.tabIdx) [] := by
      rw [Cli.handleTab_of_ne_nil hnil, ← hcontent]
      rfl
    dsimp only
    rw [hnext, List.append_left_inj, throughLastSpace_eq_iff]
    constructor
    · intro hspace _ text' htext'
      rwa [htext'.eq hlisted.completion]
    · intro hspace
      exact hspace hnil text hlisted.completion

theorem keepsTyped_arrow_iff (h : w.Sound) {event : Event} {direction : Int}
    (hevent : w.cli.onEvent event = w.cli.navigateHistory direction) (hescape : event ≠ .escape) :
    KeepsTyped w event (w.step event) ↔
      (w.cli.tabMatches ≠ [] → ∀ line ∈ w.cli.shown direction, line = w.cli.input.content) := by
  obtain ⟨hcontent', hmatches, -, -⟩ := w.cli.navigateHistory_eq direction
  by_cases hnil : w.cli.tabMatches = []
  · refine iff_of_true (keepsTyped_of_nil ?_ fun heq => absurd heq hescape)
      fun hne => absurd hnil hne
    rw [step_of_nil hnil, hevent]
    exact hmatches.trans hnil
  · obtain ⟨text, hlisted, hcontent⟩ := h hnil
    rw [step_of_ne_nil hnil, hevent, (hlisted.navigateHistory direction).keepsTyped_iff hescape]
    dsimp only
    rw [hcontent', ← hcontent]
    cases w.cli.shown direction with
    | none => simp
    | some line => simp [hnil]

theorem keepsTyped_iff (h : w.Sound) (event : Event) :
    KeepsTyped w event (w.step event) ↔ w.cli.Keeps event := by
  cases event with
  | tab => exact keepsTyped_tab_iff h rfl nofun
  | tabReverse => exact keepsTyped_tab_iff h rfl nofun
  | arrowUp => exact keepsTyped_arrow_iff h rfl nofun
  | arrowDown => exact keepsTyped_arrow_iff h rfl nofun
  | enter => exact iff_of_true (keepsTyped_of_nil rfl nofun) trivial
  | character text => exact iff_of_true (keepsTyped_of_nil rfl nofun) trivial
  | escape =>
    refine iff_of_true ?_ trivial
    by_cases hnil : w.cli.tabMatches = []
    · refine keepsTyped_of_nil ?_ fun _ hne => absurd hnil hne
      rw [step_of_nil hnil, Cli.onEvent, if_pos hnil]
      exact hnil
    · obtain ⟨text, hlisted, -⟩ := h hnil
      rw [step_of_ne_nil hnil, Cli.onEvent, if_neg hnil]
      exact keepsTyped_of_nil rfl fun _ _ => hlisted.before

/-- After an event there is no list, or one that stands for a text. -/
theorem Sound.listed_step (h : w.Sound) (event : Event) :
    (w.step event).cli.tabMatches = [] ∨
      event ≠ .escape ∧ ∃ text, (w.step event).Listed text := by
  by_cases hnil : w.cli.tabMatches = []
  · rw [step_of_nil hnil]
    have htab : ∀ reverse, (w.cli.handleTab reverse).tabMatches = [] ∨
        ∃ text, Listed ⟨w.cli.handleTab reverse, w.cli.input.content⟩ text := by
      intro reverse
      refine (listed_handleTab_of_nil hnil reverse).imp_right ?_
      rintro ⟨text, hlisted, -⟩
      exact ⟨text, hlisted⟩
    have harrow : ∀ direction, (w.cli.navigateHistory direction).tabMatches = [] :=
      fun direction => (w.cli.navigateHistory_eq direction).2.1.trans hnil
    cases event with
    | tab => exact (htab false).imp_right (And.intro nofun)
    | tabReverse => exact (htab true).imp_right (And.intro nofun)
    | arrowUp => exact .inl (harrow 1)
    | arrowDown => exact .inl (harrow (-1))
    | enter => exact .inl rfl
    | character text => exact .inl rfl
    | escape => exact .inl (by rw [Cli.onEvent, if_pos hnil]; exact hnil)
  · rw [step_of_ne_nil hnil]
    obtain ⟨text, hlisted, -⟩ := h hnil
    cases event with
    | tab => exact .inr ⟨nofun, _, hlisted.handleTab false⟩
    | tabReverse => exact .inr ⟨nofun, _, hlisted.handleTab true⟩
    | arrowUp => exact .inr ⟨nofun, _, hlisted.navigateHistory 1⟩
    | arrowDown => exact .inr ⟨nofun, _, hlisted.navigateHistory (-1)⟩
    | enter => exact .inl rfl
    | character text => exact .inl rfl
    | escape => exact .inl (by rw [Cli.onEvent, if_neg hnil]; rfl)

theorem Sound.step (h : w.Sound) {event : Event} (hkeeps : KeepsTyped w event (w.step event)) :
    (w.step event).Sound := by
  intro hne
  obtain hnil | ⟨hescape, text, hlisted⟩ := h.listed_step event
  · exact absurd hnil hne
  · exact ⟨text, hlisted, (hlisted.keepsTyped_iff hescape).mp hkeeps⟩

/-- A run of events keeps what was typed exactly when no completion with a space is
completed again, and no search of the history changes a line with a list of matches. -/
theorem keepsTypedAll_iff (completions : CompletionMap) (history : List (List UInt8))
    (events : List Event) :
    Transition.Along (fun w event => some (step w event)) KeepsTyped
        (create completions history) events ↔
      Transition.Along (fun w event => some (step w event)) (fun w event _ => w.cli.Keeps event)
        (create completions history) events := by
  refine Transition.along_iff (P := fun _ => True) ?_ ?_ (sound_create completions history)
    fun _ _ => trivial
  · rintro w event w' - hsound hstep hkeeps
    rw [Option.some_inj] at hstep
    subst hstep
    exact hsound.step hkeeps
  · rintro w event w' - hsound hstep
    rw [Option.some_inj] at hstep
    subst hstep
    exact keepsTyped_iff hsound event

/-- A table of two commands with a space. -/
def gitCommands : CompletionMap :=
  ⟨[([103, 32, 97], []), ([103, 32, 98], [])], by decide⟩

/-- After `Tab Tab` the line is `g g a`, not `g a`. -/
theorem not_keepsTypedAll : ¬ ∀ (completions : CompletionMap) (history : List (List UInt8))
    (events : List Event),
    Transition.Along (fun w event => some (step w event)) KeepsTyped
      (create completions history) events := by
  intro h
  have hkeeps := (h gitCommands [] ([.tab] ++ [.tab])).of_runs rfl rfl
  obtain ⟨text, htext, hcontent⟩ := hkeeps.completes (by decide)
  obtain rfl : [103, 32, 97] = text := Option.some.inj htext
  revert hcontent
  decide

end Events

end World

end Sihd.Tui
