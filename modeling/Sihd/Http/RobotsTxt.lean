import Sihd.Http.HeaderHistory
import Sihd.Http.HttpServer

/-!
# robots.txt

A text is parsed line by line. The rules of a line go to the agents that were
named before it; a line that is blank, or blank in front of its comment, ends
their block. The splitter leaves out the empty lines.

A path is judged by the longest rules that begin it, among which one that allows
wins. The lengths are compared as `int`, so this is exact for the paths that are
shorter than 2^31 bytes.
-/

namespace Sihd.Http

open Util.Str

/-- `#`. -/
abbrev hash : UInt8 := 35

/-- `user-agent`. -/
def userAgentKey : List UInt8 := [117, 115, 101, 114, 45, 97, 103, 101, 110, 116]

/-- `disallow`. -/
def disallowKey : List UInt8 := [100, 105, 115, 97, 108, 108, 111, 119]

/-- `allow`. -/
def allowKey : List UInt8 := [97, 108, 108, 111, 119]

/-- `crawl-delay`. -/
def crawlDelayKey : List UInt8 := [99, 114, 97, 119, 108, 45, 100, 101, 108, 97, 121]

/-- `*`. -/
def wildcard : List UInt8 := [42]

/-- `Rule`. -/
structure RobotsRule where
  allow : Bool
  path : List UInt8

structure AgentRules where
  rules : List RobotsRule := []
  crawlDelayS : Option Int := none

/-- The agents, with their rules. -/
abbrev RobotsTxt := List UInt8 → Option AgentRules

namespace RobotsTxt

/-! ### The parser -/

/-- What the loop of `parse` keeps. -/
structure ParseState where
  agents : RobotsTxt
  currentAgents : List (List UInt8)
  inBlock : Bool

def ParseState.start : ParseState := ⟨fun _ => none, [], false⟩

/-- `_agents.emplace(a, AgentRules {})`. -/
def emplaceAgent (agents : RobotsTxt) (a : List UInt8) : RobotsTxt :=
  if (agents a).isSome then agents else Function.update agents a (some {})

/-- A change of `_agents[a]`. -/
def changeAgent (change : AgentRules → AgentRules) (agents : RobotsTxt) (a : List UInt8) :
    RobotsTxt :=
  Function.update agents a (some (change ((agents a).getD {})))

/-- A line without its comment, trimmed. -/
def stripLine (line : List UInt8) : List UInt8 :=
  trimSpaces ((trimSpaces line).takeWhile (· ≠ hash))

/-- The loop over the lines. -/
def parseLine (st : ParseState) (lineBuf : List UInt8) : ParseState :=
  let line := stripLine lineBuf
  if line = [] then { st with currentAgents := [], inBlock := false }
  else
    match cut colon line with
    | none => st
    | some (before, after) =>
        let key := strToLower (trimSpaces before)
        let value := trimSpaces after
        if key = userAgentKey then
          -- an agent after rules starts afresh, and stays in the block
          let current := (if st.inBlock then [] else st.currentAgents) ++ [strToLower value]
          { st with agents := current.foldl emplaceAgent st.agents, currentAgents := current }
        else if key = disallowKey ∨ key = allowKey then
          if st.currentAgents = [] then st
          else
            let rule : RobotsRule := ⟨key = allowKey, value⟩
            let push : AgentRules → AgentRules := fun r => { r with rules := r.rules ++ [rule] }
            { st with
              agents := st.currentAgents.foldl (changeAgent push) st.agents
              inBlock := true }
        else if key = crawlDelayKey then
          if st.currentAgents = [] then st
          else
            match convertFromString .int64 value 10 with
            | none => st
            | some delay =>
                let set : AgentRules → AgentRules := fun r => { r with crawlDelayS := some delay }
                { st with agents := st.currentAgents.foldl (changeAgent set) st.agents }
        else st

def parse (content : List UInt8) : RobotsTxt :=
  ((split content [lineFeed]).foldl parseLine .start).agents

/-! ### The decisions -/

def findRules (robots : RobotsTxt) (userAgent : List UInt8) : Option AgentRules :=
  (robots (strToLower userAgent)).or (robots wildcard)

/-- The best length and its verdict after a rule. -/
def considerRule (path : List UInt8) (best : Int × Bool) (rule : RobotsRule) : Int × Bool :=
  if rule.path = [] then
    if rule.allow then best else if best.1 < 0 then (0, true) else best
  else if rule.path <+: path then
    let len := IntType.int32.cast rule.path.length
    if best.1 < len ∨ len = best.1 ∧ rule.allow then (len, rule.allow) else best
  else best

/-- The loop of `is_allowed`. -/
def rulesAllow (rules : List RobotsRule) (path : List UInt8) : Bool :=
  (rules.foldl (considerRule path) (-1, true)).2

def isAllowed (robots : RobotsTxt) (userAgent path : List UInt8) : Bool :=
  match findRules robots userAgent with
  | none => true
  | some rules => rulesAllow rules.rules path

def crawlDelay (robots : RobotsTxt) (userAgent : List UInt8) : Option Int :=
  (findRules robots userAgent).bind AgentRules.crawlDelayS

/-! ### The longest match -/

/-- A rule that counts for a path. -/
def Applies (path : List UInt8) (rule : RobotsRule) : Prop := rule.path ≠ [] ∧ rule.path <+: path

/-- No rule counts, or one that allows is among the longest that do. -/
def LongestMatchAllows (rules : List RobotsRule) (path : List UInt8) : Prop :=
  (∀ rule ∈ rules, ¬ Applies path rule) ∨
    ∃ rule ∈ rules, rule.allow = true ∧ Applies path rule ∧
      ∀ other ∈ rules, Applies path other → other.path.length ≤ rule.path.length

/-- The best length is that of the longest rules that count, if any does, and the verdict theirs. -/
structure Best (path : List UInt8) (rules : List RobotsRule) (best : Int × Bool) : Prop where
  neg_one_le : -1 ≤ best.1
  length_le : ∀ rule ∈ rules, Applies path rule → (rule.path.length : Int) ≤ best.1
  allow_of_nonpos : best.1 ≤ 0 → best.2 = true
  exists_of_pos : 0 < best.1 → ∃ rule ∈ rules, Applies path rule ∧ (rule.path.length : Int) = best.1
  allow_iff : 0 < best.1 → (best.2 = true ↔
    ∃ rule ∈ rules, rule.allow = true ∧ Applies path rule ∧ (rule.path.length : Int) = best.1)

namespace Best

variable {path : List UInt8} {rules : List RobotsRule} {best : Int × Bool} {rule : RobotsRule}

theorem nil (path : List UInt8) : Best path [] (-1, true) where
  neg_one_le := le_rfl
  length_le := List.forall_mem_nil _
  allow_of_nonpos _ := rfl
  exists_of_pos h := absurd h (by decide)
  allow_iff h := absurd h (by decide)

/-- An empty rule may raise the best from -1 to 0, where nothing counts either. -/
theorem zero (h : Best path rules best) (hneg : best.1 < 0) : Best path rules (0, true) where
  neg_one_le := by decide
  length_le r hr happlies := (h.length_le r hr happlies).trans hneg.le
  allow_of_nonpos _ := rfl
  exists_of_pos hpos := absurd hpos (lt_irrefl _)
  allow_iff hpos := absurd hpos (lt_irrefl _)

end Best

/-- The order of the rules and their repetitions do not count. -/
theorem LongestMatchAllows.congr {rules rules' : List RobotsRule}
    (h : ∀ rule, rule ∈ rules' ↔ rule ∈ rules) (path : List UInt8) :
    LongestMatchAllows rules' path ↔ LongestMatchAllows rules path := by
  simp only [LongestMatchAllows, h]

end RobotsTxt

end Sihd.Http
