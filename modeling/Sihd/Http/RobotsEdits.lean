import Sihd.Http.RobotsTxt

/-!
# Comments and line ends of robots.txt

A line with nothing but a comment, and an empty line with a carriage return, end
the block in which they stand, and an empty line does not. So a text may be given
and may lose comments and carriage returns, and the decisions stay the same, at
the places where no block is open, and at no other one.
-/

namespace Sihd.Http.RobotsTxt

open Util.Str

/-! ### Edits -/

/-- The text of some lines. -/
def unlines (lines : List (List UInt8)) : List UInt8 := [lineFeed].intercalate lines

/-- No line has a line feed. -/
def NoFeeds (lines : List (List UInt8)) : Prop := ∀ line ∈ lines, lineFeed ∉ line

instance (lines : List (List UInt8)) : Decidable (NoFeeds lines) :=
  inferInstanceAs (Decidable (∀ line ∈ lines, lineFeed ∉ line))

/-- Blanks and a comment. -/
def IsComment (line : List UInt8) : Prop :=
  ∃ blanks text, line = blanks ++ hash :: text ∧ ∀ c ∈ blanks, isSpace c = true

/-- A line, and what it may be made: it gets a carriage return, or a comment behind blanks. -/
inductive LineEdit : List UInt8 → List UInt8 → Prop
  | keep (line : List UInt8) : LineEdit line line
  | carriageReturn (line : List UInt8) : LineEdit line (line ++ [carriageReturn])
  | comment (line text : List UInt8) {blanks : List UInt8} :
      (∀ c ∈ blanks, isSpace c = true) → LineEdit line (line ++ (blanks ++ hash :: text))

/-- The lines behind some others, edited: each by itself, with comments put between them or taken
away. The places where an empty line is made another one and where a comment comes or goes are in
`ok`. -/
inductive Edits (ok : List (List UInt8) → Prop) :
    List (List UInt8) → List (List UInt8) → List (List UInt8) → Prop
  | nil (before : List (List UInt8)) : Edits ok before [] []
  | line {before lines lines' : List (List UInt8)} {l l' : List UInt8} : LineEdit l l' →
      (l = [] → l' ≠ [] → ok before) → Edits ok (before ++ [l]) lines lines' →
      Edits ok before (l :: lines) (l' :: lines')
  | insert {before lines lines' : List (List UInt8)} {comment : List UInt8} :
      IsComment comment → ok before → Edits ok before lines lines' →
      Edits ok before lines (comment :: lines')
  | remove {before lines lines' : List (List UInt8)} {comment : List UInt8} :
      IsComment comment → ok before → Edits ok (before ++ [comment]) lines lines' →
      Edits ok before (comment :: lines) lines'

/-- Every line feed with a carriage return before it. -/
def withCrlf (content : List UInt8) : List UInt8 :=
  content.flatMap fun c => if c = lineFeed then crlf else [c]

def SameDecisions (content content' : List UInt8) : Prop :=
  ∀ userAgent path,
    isAllowed (parse content') userAgent path = isAllowed (parse content) userAgent path ∧
      crawlDelay (parse content') userAgent = crawlDelay (parse content) userAgent

/-- A line that names an agent. -/
def IsUserAgentLine (line : List UInt8) : Prop :=
  ∃ before after, cut colon (stripLine line) = some (before, after) ∧
    strToLower (trimSpaces before) = userAgentKey

/-- A line that is not empty, with nothing but blanks and a comment. -/
def EndsBlock (line : List UInt8) : Prop := line ≠ [] ∧ stripLine line = []

/-- Behind every line that names an agent stands one that ends its block. -/
def Settled (lines : List (List UInt8)) : Prop :=
  ∀ before line after, lines = before ++ line :: after → IsUserAgentLine line →
    ∃ other ∈ after, EndsBlock other

/-! ### Trimmed lines -/

theorem trimSpaces_append_of_spaces (s : List UInt8) {blanks : List UInt8}
    (h : ∀ c ∈ blanks, isSpace c = true) : trimSpaces (s ++ blanks) = trimSpaces s := by
  rw [trimSpaces, trimSpaces, List.rdropWhile, List.reverse_append, List.dropWhile_append_of_pos]
  · rfl
  · simpa using h

theorem trimSpaces_of_spaces {blanks : List UInt8} (h : ∀ c ∈ blanks, isSpace c = true) :
    trimSpaces blanks = [] := by
  rw [← List.nil_append blanks, trimSpaces_append_of_spaces _ h]
  rfl

theorem trimSpaces_spaces_append (s : List UInt8) {blanks : List UInt8}
    (h : ∀ c ∈ blanks, isSpace c = true) : trimSpaces (blanks ++ s) = trimSpaces s := by
  induction s using List.reverseRecOn with
  | nil => rw [List.append_nil, trimSpaces_of_spaces h]; rfl
  | append_singleton s c ih =>
    by_cases hc : isSpace c = true
    · have hlast : ∀ d ∈ [c], isSpace d = true := List.forall_mem_singleton.mpr hc
      rw [← List.append_assoc, trimSpaces_append_of_spaces _ hlast, ih,
        trimSpaces_append_of_spaces _ hlast]
    · rw [trimSpaces, trimSpaces, ← List.append_assoc, List.rdropWhile_concat_neg _ _ _ hc,
        List.rdropWhile_concat_neg _ _ _ hc, List.append_assoc, List.dropWhile_append_of_pos h]

theorem exists_trimSpaces (s : List UInt8) : ∃ left right, s = left ++ (trimSpaces s ++ right) ∧
    (∀ c ∈ left, isSpace c = true) ∧ ∀ c ∈ right, isSpace c = true := by
  refine ⟨(s.rdropWhile isSpace).takeWhile isSpace, s.rtakeWhile isSpace, ?_, ?_, ?_⟩
  · rw [trimSpaces, ← List.append_assoc, List.takeWhile_append_dropWhile,
      List.rdropWhile_append_rtakeWhile]
  · exact fun c hc => List.mem_takeWhile_imp hc
  · exact fun c hc => List.mem_rtakeWhile_imp hc

theorem space_ne_hash {c : UInt8} (h : isSpace c = true) : c ≠ hash := by
  rintro rfl
  cases h

theorem takeWhile_of_spaces {blanks : List UInt8} (h : ∀ c ∈ blanks, isSpace c = true)
    (s : List UInt8) :
    (blanks ++ s).takeWhile (· ≠ hash) = blanks ++ s.takeWhile (· ≠ hash) :=
  List.takeWhile_append_of_pos fun c hc => decide_eq_true (space_ne_hash (h c hc))

theorem takeWhile_append_of_mem {s : List UInt8} (h : hash ∈ s) (t : List UInt8) :
    (s ++ t).takeWhile (· ≠ hash) = s.takeWhile (· ≠ hash) := by
  induction s with
  | nil => cases h
  | cons c s ih =>
    by_cases hc : c = hash
    · simp [hc]
    · have hmem := (List.mem_cons.mp h).resolve_left (Ne.symm hc)
      rw [List.cons_append, List.takeWhile_cons_of_pos (by simpa using hc),
        List.takeWhile_cons_of_pos (by simpa using hc), ih hmem]

theorem takeWhile_append_of_not_mem {s : List UInt8} (h : hash ∉ s) (t : List UInt8) :
    (s ++ t).takeWhile (· ≠ hash) = s ++ t.takeWhile (· ≠ hash) := by
  refine List.takeWhile_append_of_pos fun c hc => decide_eq_true ?_
  rintro rfl
  exact h hc

theorem takeWhile_of_not_mem {s : List UInt8} (h : hash ∉ s) : s.takeWhile (· ≠ hash) = s := by
  have happ := takeWhile_append_of_not_mem h []
  rwa [List.append_nil, List.takeWhile_nil, List.append_nil] at happ

/-- The blanks around a line do not count. -/
theorem stripLine_eq (line : List UInt8) :
    stripLine line = trimSpaces (line.takeWhile (· ≠ hash)) := by
  obtain ⟨left, right, hline, hleft, hright⟩ := exists_trimSpaces line
  rw [stripLine]
  nth_rewrite 2 [hline]
  rw [takeWhile_of_spaces hleft, trimSpaces_spaces_append _ hleft]
  by_cases hmem : hash ∈ trimSpaces line
  · rw [takeWhile_append_of_mem hmem]
  · have hright' : hash ∉ right := fun h => space_ne_hash (hright _ h) rfl
    rw [takeWhile_append_of_not_mem hmem, takeWhile_of_not_mem hright',
      trimSpaces_append_of_spaces _ hright, takeWhile_of_not_mem hmem]

theorem takeWhile_hash_cons (text : List UInt8) :
    (hash :: text).takeWhile (· ≠ hash) = [] := List.takeWhile_cons_of_neg (by simp)

theorem stripLine_append_spaces (line : List UInt8) {blanks : List UInt8} (rest : List UInt8)
    (h : ∀ c ∈ blanks, isSpace c = true) (hrest : rest.takeWhile (· ≠ hash) = []) :
    stripLine (line ++ (blanks ++ rest)) = stripLine line := by
  rw [stripLine_eq, stripLine_eq]
  by_cases hmem : hash ∈ line
  · rw [takeWhile_append_of_mem hmem]
  · rw [takeWhile_append_of_not_mem hmem, takeWhile_of_spaces h, hrest, List.append_nil,
      trimSpaces_append_of_spaces _ h, takeWhile_of_not_mem hmem]

theorem LineEdit.stripLine_eq {l l' : List UInt8} (h : LineEdit l l') :
    stripLine l' = stripLine l := by
  cases h with
  | keep => rfl
  | carriageReturn =>
    have hblanks : ∀ c ∈ [Http.carriageReturn], isSpace c = true :=
      List.forall_mem_singleton.mpr (by decide)
    exact stripLine_append_spaces l [] hblanks List.takeWhile_nil
  | comment text hblanks =>
    exact stripLine_append_spaces l _ hblanks (takeWhile_hash_cons text)

theorem LineEdit.eq_nil {l : List UInt8} (h : LineEdit l []) : l = [] := by
  generalize hl : ([] : List UInt8) = l' at h
  cases h with
  | keep => rfl
  | carriageReturn => simp at hl
  | comment text hblanks => simp at hl

theorem IsComment.endsBlock {line : List UInt8} (h : IsComment line) : EndsBlock line := by
  obtain ⟨blanks, text, rfl, hblanks⟩ := h
  refine ⟨by simp, ?_⟩
  have hstrip := stripLine_append_spaces [] _ hblanks (takeWhile_hash_cons text)
  rw [List.nil_append] at hstrip
  rw [hstrip]
  rfl

theorem endsBlock_carriageReturn : EndsBlock [carriageReturn] := ⟨by decide, by decide⟩

/-! ### Lines that are read -/

/-- A line of a text, of which the splitter leaves out the empty ones. -/
def readLine (st : ParseState) (line : List UInt8) : ParseState :=
  if line = [] then st else parseLine st line

def readLines (lines : List (List UInt8)) : ParseState := lines.foldl readLine .start

theorem split_unlines {lines : List (List UInt8)} (h : NoFeeds lines) :
    split (unlines lines) [lineFeed] = lines.filter fun line => line ≠ [] := by
  rw [split_eq (List.cons_ne_nil _ _), unlines]
  cases lines with
  | nil => simp
  | cons l lines => rw [pieces_char_intercalate (List.cons_ne_nil _ _) h]

theorem parse_unlines {lines : List (List UInt8)} (h : NoFeeds lines) :
    parse (unlines lines) = (readLines lines).agents := by
  rw [parse, split_unlines h, readLines, List.foldl_filter]
  congr 2
  funext st line
  by_cases hline : line = [] <;> simp [readLine, hline]

theorem readLines_concat (before : List (List UInt8)) (line : List UInt8) :
    readLines (before ++ [line]) = readLine (readLines before) line := List.foldl_concat _ _ _ _

theorem parseLine_congr {l l' : List UInt8} (h : stripLine l' = stripLine l) (st : ParseState) :
    parseLine st l' = parseLine st l := by
  rw [parseLine, parseLine, h]

theorem readLine_of_endsBlock {line : List UInt8} (h : EndsBlock line) (st : ParseState) :
    readLine st line = { st with currentAgents := [], inBlock := false } := by
  rw [readLine, if_neg h.1, parseLine]
  exact if_pos h.2

theorem IsUserAgentLine.stripLine_ne_nil {line : List UInt8} (h : IsUserAgentLine line) :
    stripLine line ≠ [] := by
  obtain ⟨before, after, hcut, -⟩ := h
  intro hnil
  rw [hnil] at hcut
  cases hcut

theorem currentAgents_of_isUserAgentLine {line : List UInt8} (h : IsUserAgentLine line)
    (st : ParseState) : (parseLine st line).currentAgents ≠ [] := by
  have hne := h.stripLine_ne_nil
  obtain ⟨before, after, hcut, hkey⟩ := h
  rw [parseLine]
  simp [hne, hcut, hkey]

theorem crawlDelayKey_ne : crawlDelayKey ≠ userAgentKey := by decide

/-- The other lines leave the agents that are current, and only rules for some open a block. -/
theorem parseLine_of_not_isUserAgentLine {line : List UInt8} (hne : stripLine line ≠ [])
    (h : ¬ IsUserAgentLine line) (st : ParseState) :
    (parseLine st line).currentAgents = st.currentAgents ∧
      (st.currentAgents = [] → parseLine st line = st) := by
  rw [parseLine]
  simp only [if_neg hne]
  cases hcut : cut colon (stripLine line) with
  | none => exact ⟨rfl, fun _ => rfl⟩
  | some p =>
    obtain ⟨before, after⟩ := p
    have hkey : strToLower (trimSpaces before) ≠ userAgentKey :=
      fun hkey => h ⟨before, after, hcut, hkey⟩
    simp only [if_neg hkey]
    split_ifs with hrule hcurrent hdelay
    · exact ⟨rfl, fun _ => rfl⟩
    · exact ⟨rfl, fun hnil => absurd hnil hcurrent⟩
    · exact ⟨rfl, fun _ => rfl⟩
    · split
      · exact ⟨rfl, fun _ => rfl⟩
      · exact ⟨rfl, fun hnil => absurd hnil ‹_›⟩
    · exact ⟨rfl, fun _ => rfl⟩

/-- No block is open where no agent is current. -/
theorem inBlock_readLines {lines : List (List UInt8)}
    (h : (readLines lines).currentAgents = []) : (readLines lines).inBlock = false := by
  induction lines using List.reverseRecOn with
  | nil => rfl
  | append_singleton lines line ih =>
    rw [readLines_concat] at h ⊢
    by_cases hline : line = []
    · rw [readLine, if_pos hline] at h ⊢
      exact ih h
    · by_cases hnil : stripLine line = []
      · rw [readLine_of_endsBlock ⟨hline, hnil⟩]
      · rw [readLine, if_neg hline] at h ⊢
        by_cases hagent : IsUserAgentLine line
        · exact absurd h (currentAgents_of_isUserAgentLine hagent _)
        · obtain ⟨hcurrent, hsame⟩ := parseLine_of_not_isUserAgentLine hnil hagent (readLines lines)
          rw [hcurrent] at h
          rw [hsame h]
          exact ih h

/-! ### Settled places -/

theorem settled_concat (lines : List (List UInt8)) (line : List UInt8) :
    Settled (lines ++ [line]) ↔ EndsBlock line ∨ ¬ IsUserAgentLine line ∧ Settled lines := by
  constructor
  · intro h
    by_cases hends : EndsBlock line
    · exact .inl hends
    refine .inr ⟨fun hagent => ?_, fun before other after heq hagent => ?_⟩
    · obtain ⟨r, hr, -⟩ := h lines line [] rfl hagent
      cases hr
    · obtain ⟨r, hr, hends'⟩ := h before other (after ++ [line])
        (by rw [heq, List.append_assoc, List.cons_append]) hagent
      rcases List.mem_append.mp hr with hr | hr
      · exact ⟨r, hr, hends'⟩
      · rw [List.mem_singleton.mp hr] at hends'
        exact absurd hends' hends
  · intro h before other after heq hagent
    rcases List.eq_nil_or_concat after with rfl | ⟨after, last, rfl⟩
    · obtain ⟨-, hother⟩ := List.append_inj' heq rfl
      rw [← List.singleton_inj.mp hother] at hagent
      rcases h with hends | ⟨hnot, -⟩
      · exact absurd hends.2 hagent.stripLine_ne_nil
      · exact absurd hagent hnot
    · rw [List.concat_eq_append, ← List.cons_append, ← List.append_assoc] at heq
      obtain ⟨hlines, hlast⟩ := List.append_inj' heq rfl
      rw [List.concat_eq_append, ← List.singleton_inj.mp hlast]
      rcases h with hends | ⟨-, hsettled⟩
      · exact ⟨line, List.mem_append_right _ List.mem_cons_self, hends⟩
      · obtain ⟨r, hr, hends⟩ := hsettled before other after hlines hagent
        exact ⟨r, List.mem_append_left _ hr, hends⟩

/-- No agent is current exactly where the block of each was ended. -/
theorem currentAgents_readLines_iff (lines : List (List UInt8)) :
    (readLines lines).currentAgents = [] ↔ Settled lines := by
  induction lines using List.reverseRecOn with
  | nil =>
    refine iff_of_true rfl fun before line after heq => ?_
    simp at heq
  | append_singleton lines line ih =>
    rw [settled_concat, readLines_concat]
    by_cases hline : line = []
    · have hagent : ¬ IsUserAgentLine line := fun h =>
        h.stripLine_ne_nil (by rw [hline]; rfl)
      have hends : ¬ EndsBlock line := fun h => h.1 hline
      rw [readLine, if_pos hline, ih]
      simp [hagent, hends]
    · by_cases hnil : stripLine line = []
      · rw [readLine_of_endsBlock ⟨hline, hnil⟩]
        exact iff_of_true rfl (.inl ⟨hline, hnil⟩)
      · have hends : ¬ EndsBlock line := fun h => hnil h.2
        rw [readLine, if_neg hline]
        by_cases hagent : IsUserAgentLine line
        · have hcurrent := currentAgents_of_isUserAgentLine hagent (readLines lines)
          simp [hcurrent, hends, hagent]
        · rw [(parseLine_of_not_isUserAgentLine hnil hagent _).1, ih]
          simp [hends, hagent]

/-- A line that ends a block changes nothing at a settled place. -/
theorem readLine_of_settled {lines : List (List UInt8)} (h : Settled lines) {line : List UInt8}
    (hline : EndsBlock line) : readLine (readLines lines) line = readLines lines := by
  have hcurrent := (currentAgents_readLines_iff lines).mpr h
  rw [readLine_of_endsBlock hline]
  conv_lhs => rw [← hcurrent, ← inBlock_readLines hcurrent]

theorem LineEdit.readLine_eq {l l' : List UInt8} (h : LineEdit l l') {before : List (List UInt8)}
    (hplace : l = [] → l' ≠ [] → Settled before) :
    readLine (readLines before) l' = readLine (readLines before) l := by
  by_cases hl : l = []
  · by_cases hl' : l' = []
    · rw [hl, hl']
    · have hends : EndsBlock l' := ⟨hl', by rw [h.stripLine_eq, hl]; rfl⟩
      rw [readLine_of_settled (hplace hl hl') hends, readLine, if_pos hl]
  · have hl' : l' ≠ [] := by
      rintro rfl
      exact hl h.eq_nil
    rw [readLine, readLine, if_neg hl, if_neg hl', parseLine_congr h.stripLine_eq]

/-- Edits at settled places leave the state of the parser behind them. -/
theorem Edits.foldl_eq {before lines lines' : List (List UInt8)}
    (h : Edits Settled before lines lines') :
    lines'.foldl readLine (readLines before) = lines.foldl readLine (readLines before) := by
  induction h with
  | nil => rfl
  | line hedit hplace _ ih =>
    rw [List.foldl_cons, List.foldl_cons, hedit.readLine_eq hplace, ← readLines_concat, ih]
  | insert hcomment hplace _ ih =>
    rw [List.foldl_cons, readLine_of_settled hplace hcomment.endsBlock, ih]
  | @remove before lines lines' comment hcomment hplace _ ih =>
    have hread := readLine_of_settled hplace hcomment.endsBlock
    rw [readLines_concat, hread] at ih
    rw [List.foldl_cons, hread, ih]

theorem Edits.mono {ok ok' : List (List UInt8) → Prop} {before lines lines' : List (List UInt8)}
    (h : Edits ok before lines lines') (hlines : NoFeeds (before ++ lines))
    (hok : ∀ before, NoFeeds before → ok before → ok' before) : Edits ok' before lines lines' := by
  induction h with
  | nil before => exact .nil before
  | line hedit hplace _ ih =>
    have hbefore := (List.forall_mem_append.mp hlines).1
    rw [List.append_cons] at hlines
    exact .line hedit (fun hl hl' => hok _ hbefore (hplace hl hl')) (ih hlines)
  | insert hcomment hplace _ ih =>
    have hbefore := (List.forall_mem_append.mp hlines).1
    exact .insert hcomment (hok _ hbefore hplace) (ih hlines)
  | remove hcomment hplace _ ih =>
    have hbefore := (List.forall_mem_append.mp hlines).1
    rw [List.append_cons] at hlines
    exact .remove hcomment (hok _ hbefore hplace) (ih hlines)

theorem sameDecisions_of_readLines {lines lines' : List (List UInt8)} (hlines : NoFeeds lines)
    (hlines' : NoFeeds lines') (h : (readLines lines').agents = (readLines lines).agents) :
    SameDecisions (unlines lines) (unlines lines') := by
  intro userAgent path
  rw [parse_unlines hlines, parse_unlines hlines', h]
  exact ⟨rfl, rfl⟩

/-! ### Blocks that are open -/

theorem strToLower_strToLower (s : List UInt8) : strToLower (strToLower s) = strToLower s := by
  induction s with
  | nil => rfl
  | cons c s ih =>
    rw [strToLower]
    split
    · rename_i hc
      rw [strToLower, if_pos hc]
    · rename_i hc
      rw [strToLower, if_neg (toLower_eq_zero_iff.not.mpr hc), toLower_toLower, ih]

/-- The names of agents are kept in lower case. -/
theorem strToLower_of_mem {lines : List (List UInt8)} :
    ∀ a ∈ (readLines lines).currentAgents, strToLower a = a := by
  induction lines using List.reverseRecOn with
  | nil => exact List.forall_mem_nil _
  | append_singleton lines line ih =>
    rw [readLines_concat]
    by_cases hline : line = []
    · rwa [readLine, if_pos hline]
    · by_cases hnil : stripLine line = []
      · rw [readLine_of_endsBlock ⟨hline, hnil⟩]
        exact List.forall_mem_nil _
      · rw [readLine, if_neg hline]
        by_cases hagent : IsUserAgentLine line
        · obtain ⟨before, after, hcut, hkey⟩ := hagent
          rw [parseLine]
          simp only [if_neg hnil, hcut, if_pos hkey]
          refine List.forall_mem_append.mpr ⟨?_, List.forall_mem_singleton.mpr
            (strToLower_strToLower _)⟩
          split
          · exact List.forall_mem_nil _
          · exact ih
        · rwa [(parseLine_of_not_isUserAgentLine hnil hagent _).1]

/-- `crawl-delay:` and a digit. -/
def crawlDelayLine (digit : UInt8) : List UInt8 := crawlDelayKey ++ [colon, digit]

/-- The change of a crawl delay. -/
def setDelay (delay : Int) (rules : AgentRules) : AgentRules :=
  { rules with crawlDelayS := some delay }

theorem parseLine_crawlDelayLine {digit : UInt8} {delay : Int}
    (hdigit : (digit, delay) = (48, 0) ∨ (digit, delay) = (49, 1)) (st : ParseState) :
    parseLine st (crawlDelayLine digit) = if st.currentAgents = [] then st else
      { st with agents := st.currentAgents.foldl (changeAgent (setDelay delay)) st.agents } := by
  have hstrip : stripLine (crawlDelayLine digit) ≠ [] ∧
      cut colon (stripLine (crawlDelayLine digit)) = some (crawlDelayKey, [digit]) ∧
      trimSpaces [digit] = [digit] ∧ convertFromString .int64 [digit] 10 = some delay := by
    rcases hdigit with h | h
    · cases h
      decide
    · cases h
      decide
  obtain ⟨hne, hcut, htrim, hconvert⟩ := hstrip
  have hkey : strToLower (trimSpaces crawlDelayKey) = crawlDelayKey := by decide
  have hrule : ¬ (crawlDelayKey = disallowKey ∨ crawlDelayKey = allowKey) := by decide
  rw [parseLine]
  simp only [if_neg hne, hcut, hkey, htrim, hconvert, if_neg crawlDelayKey_ne, if_neg hrule]
  rfl

/-- An agent whose delay was set has it. -/
theorem crawlDelayS_foldl {agents : RobotsTxt} {delay : Int} {current : List (List UInt8)}
    {a : List UInt8} (h : a ∈ current) :
    (current.foldl (changeAgent (setDelay delay)) agents a).bind AgentRules.crawlDelayS =
      some delay := by
  induction current using List.reverseRecOn with
  | nil => cases h
  | append_singleton current b ih =>
    rw [List.foldl_concat, changeAgent]
    by_cases hab : a = b
    · rw [hab, Function.update_self]
      rfl
    · rw [Function.update_of_ne hab]
      exact ih ((List.mem_append.mp h).resolve_right fun hb => hab (List.mem_singleton.mp hb))

theorem noFeeds_crawlDelayLine {digit : UInt8} (h : digit = 48 ∨ digit = 49) :
    lineFeed ∉ crawlDelayLine digit := by
  rcases h with rfl | rfl <;> decide

theorem crawlDelay_of_bind {robots : RobotsTxt} {a : List UInt8} {delay : Int}
    (ha : strToLower a = a) (h : (robots a).bind AgentRules.crawlDelayS = some delay) :
    crawlDelay robots a = some delay := by
  obtain ⟨rules, hrules, hdelay⟩ := Option.bind_eq_some_iff.mp h
  rw [crawlDelay, findRules, ha, hrules]
  exact hdelay

/-- A crawl delay tells an open block from none. -/
theorem exists_not_sameDecisions {lines lines' : List (List UInt8)} (hlines : NoFeeds lines)
    (hlines' : NoFeeds lines') (hopen : (readLines lines).currentAgents ≠ [])
    (hended : (readLines lines').currentAgents = []) :
    ∃ after, NoFeeds after ∧
      ¬ SameDecisions (unlines (lines ++ after)) (unlines (lines' ++ after)) := by
  obtain ⟨a, ha⟩ := List.exists_mem_of_ne_nil _ hopen
  -- a delay that the agent does not have behind the other lines
  obtain ⟨digit, delay, hdigit, hdelay⟩ : ∃ (digit : UInt8) (delay : Int),
      ((digit, delay) = (48, 0) ∨ (digit, delay) = (49, 1)) ∧
        crawlDelay (readLines lines').agents a ≠ some delay := by
    by_cases hzero : crawlDelay (readLines lines').agents a = some 0
    · exact ⟨49, 1, .inr rfl, by rw [hzero]; decide⟩
    · exact ⟨48, 0, .inl rfl, hzero⟩
  have hfeed : lineFeed ∉ crawlDelayLine digit := noFeeds_crawlDelayLine
    (hdigit.imp (congrArg Prod.fst) (congrArg Prod.fst))
  have hline : crawlDelayLine digit ≠ [] := List.append_ne_nil_of_left_ne_nil (by decide) _
  refine ⟨[crawlDelayLine digit], List.forall_mem_singleton.mpr hfeed, fun hsame => ?_⟩
  have hafter : NoFeeds [crawlDelayLine digit] := List.forall_mem_singleton.mpr hfeed
  have heq := (hsame a []).2
  rw [parse_unlines (List.forall_mem_append.mpr ⟨hlines, hafter⟩),
    parse_unlines (List.forall_mem_append.mpr ⟨hlines', hafter⟩), readLines_concat,
    readLines_concat, readLine, readLine, if_neg hline, if_neg hline,
    parseLine_crawlDelayLine hdigit, parseLine_crawlDelayLine hdigit, if_pos hended,
    if_neg hopen] at heq
  rw [crawlDelay_of_bind (strToLower_of_mem a ha) (crawlDelayS_foldl ha)] at heq
  exact hdelay heq

/-! ### Carriage returns -/

/-- The lines with a carriage return each, but for the last one. -/
def addReturns : List (List UInt8) → List (List UInt8)
  | [] => []
  | [line] => [line]
  | line :: line' :: lines => (line ++ [carriageReturn]) :: addReturns (line' :: lines)

theorem withCrlf_of_not_mem {line : List UInt8} (h : lineFeed ∉ line) : withCrlf line = line := by
  induction line with
  | nil => rfl
  | cons c line ih =>
    rw [List.mem_cons, not_or] at h
    rw [withCrlf, List.flatMap_cons, if_neg (Ne.symm h.1)]
    exact congrArg (c :: ·) (ih h.2)

theorem withCrlf_append (s t : List UInt8) : withCrlf (s ++ t) = withCrlf s ++ withCrlf t :=
  List.flatMap_append

theorem unlines_cons_cons (line line' : List UInt8) (lines : List (List UInt8)) :
    unlines (line :: line' :: lines) = line ++ [lineFeed] ++ unlines (line' :: lines) := by
  rw [unlines, List.intercalate_cons_cons]
  rfl

theorem addReturns_cons_ne_nil (line : List UInt8) (lines : List (List UInt8)) :
    addReturns (line :: lines) ≠ [] := by
  cases lines <;> exact List.cons_ne_nil _ _

theorem withCrlf_unlines {lines : List (List UInt8)} (h : NoFeeds lines) :
    withCrlf (unlines lines) = unlines (addReturns lines) := by
  induction lines with
  | nil => rfl
  | cons line lines ih =>
    obtain ⟨hline, hlines⟩ := List.forall_mem_cons.mp h
    cases lines with
    | nil => simpa [unlines, addReturns] using withCrlf_of_not_mem hline
    | cons line' lines =>
      obtain ⟨l, ls, heq⟩ := List.exists_cons_of_ne_nil (addReturns_cons_ne_nil line' lines)
      have ih := ih hlines
      rw [heq] at ih
      rw [addReturns, heq, unlines_cons_cons, unlines_cons_cons, withCrlf_append, withCrlf_append,
        withCrlf_of_not_mem hline, ih, List.append_assoc line [carriageReturn]]
      rfl

theorem noFeeds_addReturns {lines : List (List UInt8)} (h : NoFeeds lines) :
    NoFeeds (addReturns lines) := by
  induction lines with
  | nil => exact List.forall_mem_nil _
  | cons line lines ih =>
    obtain ⟨hline, hlines⟩ := List.forall_mem_cons.mp h
    cases lines with
    | nil => exact h
    | cons line' lines =>
      refine List.forall_mem_cons.mpr ⟨?_, ih hlines⟩
      rw [List.mem_append, not_or]
      exact ⟨hline, by decide⟩

/-- The returns are edits at the empty lines. -/
theorem Edits.addReturns {before lines : List (List UInt8)}
    (h : ∀ lines₁ lines₂, lines = lines₁ ++ [] :: lines₂ → lines₂ ≠ [] →
      Settled (before ++ lines₁)) : Edits Settled before lines (addReturns lines) := by
  induction lines generalizing before with
  | nil => exact .nil before
  | cons line lines ih =>
    cases lines with
    | nil => exact .line (.keep line) (fun hnil hne => absurd hnil hne) (.nil _)
    | cons line' lines =>
      refine .line (.carriageReturn line) (fun hnil _ => ?_) (ih fun lines₁ lines₂ heq hne => ?_)
      · have hsettled := h [] (line' :: lines) (by rw [hnil, List.nil_append])
          (List.cons_ne_nil _ _)
        rwa [List.append_nil] at hsettled
      · have hsettled := h (line :: lines₁) lines₂ (by rw [heq, List.cons_append]) hne
        rwa [List.append_cons] at hsettled

/-! ### The decisions -/

theorem Edits.keep_append {ok : List (List UInt8) → Prop}
    {before lines lines' : List (List UInt8)} (kept : List (List UInt8))
    (h : Edits ok (before ++ kept) lines lines') :
    Edits ok before (kept ++ lines) (kept ++ lines') := by
  induction kept generalizing before with
  | nil => rwa [List.append_nil] at h
  | cons line kept ih =>
    rw [List.append_cons] at h
    exact .line (.keep line) (fun hnil hne => absurd hnil hne) (ih h)

theorem Edits.refl (ok : List (List UInt8) → Prop) (before lines : List (List UInt8)) :
    Edits ok before lines lines := by
  have hnil : Edits ok (before ++ lines) [] [] := .nil _
  have h := hnil.keep_append lines
  rwa [List.append_nil] at h

theorem Edits.sameDecisions {lines lines' : List (List UInt8)} (hlines : NoFeeds lines)
    (hlines' : NoFeeds lines') (h : Edits Settled [] lines lines') :
    SameDecisions (unlines lines) (unlines lines') :=
  sameDecisions_of_readLines hlines hlines' (congrArg ParseState.agents h.foldl_eq)

/-- Edits keep the decisions, whatever the text is, exactly when they are at settled places: the
first part is about a set of places, the second about the carriage returns of a text, the third
about one at an empty line. -/
theorem sameDecisions_edits_iff (ok : List (List UInt8) → Prop) :
    ((∀ lines lines', NoFeeds lines → NoFeeds lines' → Edits ok [] lines lines' →
          SameDecisions (unlines lines) (unlines lines')) ↔
        ∀ before, NoFeeds before → ok before → Settled before) ∧
    (∀ lines, NoFeeds lines → (∀ before after, lines = before ++ [] :: after → after ≠ [] →
        Settled before) → SameDecisions (unlines lines) (withCrlf (unlines lines))) ∧
    ∀ before, NoFeeds before →
      ((∀ after, NoFeeds after → SameDecisions (unlines (before ++ [] :: after))
          (unlines (before ++ [carriageReturn] :: after))) ↔ Settled before) := by
  refine ⟨⟨?_, ?_⟩, fun lines hlines h => ?_, fun before hbefore => ⟨?_, ?_⟩⟩
  · intro hsame before hbefore hok
    by_contra hopen
    rw [← currentAgents_readLines_iff] at hopen
    have hcomment : IsComment [hash] := ⟨[], [], rfl, List.forall_mem_nil _⟩
    have hline : NoFeeds (before ++ [[hash]]) :=
      List.forall_mem_append.mpr ⟨hbefore, by decide⟩
    obtain ⟨after, hafter, hdiffer⟩ := exists_not_sameDecisions hbefore hline hopen
      (by rw [readLines_concat, readLine_of_endsBlock hcomment.endsBlock])
    refine hdiffer (hsame _ _ (List.forall_mem_append.mpr ⟨hbefore, hafter⟩)
      (List.forall_mem_append.mpr ⟨hline, hafter⟩) ?_)
    rw [← List.append_cons]
    exact .keep_append before (.insert hcomment hok (.refl ok _ after))
  · exact fun hsettled lines lines' hlines hlines' hedits =>
      (hedits.mono hlines hsettled).sameDecisions hlines hlines'
  · rw [withCrlf_unlines hlines]
    exact Edits.sameDecisions hlines (noFeeds_addReturns hlines) (.addReturns h)
  · intro hsame
    by_contra hopen
    rw [← currentAgents_readLines_iff] at hopen
    have hline : NoFeeds (before ++ [[carriageReturn]]) :=
      List.forall_mem_append.mpr ⟨hbefore, by decide⟩
    have hempty : NoFeeds (before ++ [[]]) :=
      List.forall_mem_append.mpr ⟨hbefore, by decide⟩
    obtain ⟨after, hafter, hdiffer⟩ := exists_not_sameDecisions hempty hline
      (by rwa [readLines_concat, readLine, if_pos rfl])
      (by rw [readLines_concat, readLine_of_endsBlock endsBlock_carriageReturn])
    rw [← List.append_cons, ← List.append_cons] at hdiffer
    exact hdiffer (hsame after hafter)
  · intro hsettled after hafter
    have hlines : ∀ line, lineFeed ∉ line → NoFeeds (before ++ line :: after) :=
      fun line hline => List.forall_mem_append.mpr
        ⟨hbefore, List.forall_mem_cons.mpr ⟨hline, hafter⟩⟩
    refine Edits.sameDecisions (hlines _ (by simp)) (hlines _ (by decide)) ?_
    refine .keep_append before (.line (.carriageReturn []) (fun _ _ => hsettled) ?_)
    exact .refl _ _ after

/-- `User-agent: *`. -/
def userAgentLine : List UInt8 := [85, 115, 101, 114, 45, 97, 103, 101, 110, 116, 58, 32, 42]

/-- `Disallow: /a`. -/
def disallowLine : List UInt8 := [68, 105, 115, 97, 108, 108, 111, 119, 58, 32, 47, 97]

/-- A comment between `User-agent: *` and `Disallow: /a` allows `/a`. -/
theorem not_sameDecisions_comment :
    ¬ SameDecisions (unlines [userAgentLine, disallowLine])
      (unlines [userAgentLine, [hash], disallowLine]) := by
  intro hsame
  have heq := (hsame [] [47, 97]).1
  rw [parse_unlines (by decide), parse_unlines (by decide)] at heq
  revert heq
  decide

end Sihd.Http.RobotsTxt
