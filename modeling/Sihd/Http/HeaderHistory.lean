import Sihd.Http.Header

/-!
# Histories of headers

A header has, under every spelling of its name, the value that was set last and
not removed. This holds of histories in which a header that is there is not set
to another value and is removed by its key, and whose lines have a blank behind
their colon.
-/

namespace Sihd.Http

open Util.Str

/-! ### The calls -/

/-- The key is the name as it is given. -/
def removeHeader (headers : HeaderMap) (name : List UInt8) : HeaderMap := headers.erase name

def setHeaders (headers added : HeaderMap) : HeaderMap :=
  added.entries.foldl (fun headers e => setHeader headers e.1 e.2) headers

/-- `get`, which throws without the header. -/
def getHeader (headers : HeaderMap) (name : List UInt8) : Option (List UInt8) :=
  headers.find (formatHdrName name)

/-- `find`, which is empty without the header. -/
def findHeader (headers : HeaderMap) (name : List UInt8) : List UInt8 :=
  (headers.find (formatHdrName name)).getD []

/-- What `add_header_from_str` returns. -/
def acceptsHeader (header : List UInt8) : Bool := (splitHeader header).isSome

inductive HeaderCall
  | setHeader (name value : List UInt8)
  | setHeaders (added : HeaderMap)
  | addHeaderFromStr (line : List UInt8)
  | removeHeader (name : List UInt8)

def HeaderCall.run (headers : HeaderMap) : HeaderCall → HeaderMap
  | .setHeader name value => Http.setHeader headers name value
  | .setHeaders added => Http.setHeaders headers added
  | .addHeaderFromStr line => Http.addHeaderFromStr headers line
  | .removeHeader name => Http.removeHeader headers name

def HeaderCall.runAll (calls : List HeaderCall) : HeaderMap := calls.foldl run .empty

/-! ### What the calls say -/

/-- Names that differ in their case and in a colon behind them. -/
def SameName (a b : List UInt8) : Prop := (hdrName a).map toLower = (hdrName b).map toLower

instance (a b : List UInt8) : Decidable (SameName a b) :=
  inferInstanceAs (Decidable (_ = _))

/-- A line without its line feed. -/
def lineText (line : List UInt8) : List UInt8 :=
  if line.getLast? = some lineFeed then line.dropLast else line

/-- The name and the value of a line, unless the value is empty. -/
def lineField (line : List UInt8) : Option (List UInt8 × List UInt8) :=
  match cutString [colon] (lineText line) with
  | none => none
  | some (name, rest) =>
      let value := if rest.head? = some space then rest.tail else rest
      if value = [] then none else some (name, value)

/-- No blank in the name, and one behind the colon if anything is. -/
def PlainLine (line : List UInt8) : Prop :=
  ∃ name, colon ∉ name ∧ space ∉ name ∧
    (lineText line = name ∨ lineText line = name ++ [colon] ∨
      ∃ value, lineText line = name ++ colon :: space :: value)

inductive HeaderEdit
  | set (name value : List UInt8)
  | remove (name : List UInt8)

def HeaderCall.edits : HeaderCall → List HeaderEdit
  | .setHeader name value => [.set name value]
  | .setHeaders added => added.entries.map fun e => .set e.1 e.2
  | .addHeaderFromStr line => (lineField line).toList.map fun e => .set e.1 e.2
  | .removeHeader name => [.remove name]

/-- The value of a name after an edit. -/
def HeaderEdit.next (name : List UInt8) (current : Option (List UInt8)) :
    HeaderEdit → Option (List UInt8)
  | .set name' value => if SameName name' name then some value else current
  | .remove name' => if SameName name' name then none else current

/-- The value that was set last and not removed. -/
def lastSet (name : List UInt8) (edits : List HeaderEdit) : Option (List UInt8) :=
  edits.foldl (HeaderEdit.next name) none

/-- An edit that gives no other value to a header that has one, and that removes one by its key. -/
def HeaderEdit.Clean (name : List UInt8) (current : Option (List UInt8)) : HeaderEdit → Prop
  | .set name' value => SameName name' name → current = none ∨ current = some value
  | .remove name' => SameName name' name → current = none ∨ name' = formatHdrName name

/-! ### Names -/

theorem toLower_toLower (c : UInt8) : toLower (toLower c) = toLower c := by
  have hall : ∀ n : Fin 256, toLower (toLower (UInt8.ofNat n)) = toLower (UInt8.ofNat n) := by
    decide +kernel
  simpa using hall ⟨c.toNat, c.toNat_lt⟩

theorem toLower_eq_zero_iff {c : UInt8} : toLower c = 0 ↔ c = 0 := by
  have hall : ∀ n : Fin 256, toLower (UInt8.ofNat n) = 0 ↔ UInt8.ofNat n = 0 := by
    decide +kernel
  simpa using hall ⟨c.toNat, c.toNat_lt⟩

theorem zero_ne_colon : (0 : UInt8) ≠ colon := by decide

theorem strToLower_eq {s : List UInt8} (h : 0 ∉ s) : strToLower s = s.map toLower := by
  induction s with
  | nil => rfl
  | cons c s ih =>
    rw [List.mem_cons, not_or] at h
    rw [strToLower, if_neg (Ne.symm h.1), ih h.2, List.map_cons]

theorem zero_mem_strToLower {s : List UInt8} : 0 ∈ strToLower s ↔ 0 ∈ s := by
  induction s with
  | nil => rfl
  | cons c s ih =>
    rw [strToLower]
    split
    · rename_i hc
      simp [hc]
    · rename_i hc
      rw [List.mem_cons, List.mem_cons, ih, eq_comm, toLower_eq_zero_iff, eq_comm]

/-- The colon of a key stands behind the name without its own. -/
theorem formatHdrName_eq (name : List UInt8) :
    formatHdrName name = strToLower (hdrName name ++ [colon]) := by
  rw [formatHdrName, hdrName]
  split
  · rename_i h
    rw [List.dropLast_append_getLast? colon h]
  · rfl

theorem zero_mem_hdrName {name : List UInt8} : 0 ∈ hdrName name ↔ 0 ∈ name := by
  rw [hdrName]
  split
  · rename_i h
    nth_rewrite 2 [← List.dropLast_append_getLast? colon h]
    simp [zero_ne_colon]
  · rfl

theorem formatHdrName_of_zero_not_mem {name : List UInt8} (h : 0 ∉ name) :
    formatHdrName name = (hdrName name).map toLower ++ [colon] := by
  have hzero : 0 ∉ hdrName name ++ [colon] := by simp [zero_mem_hdrName, h, zero_ne_colon]
  rw [formatHdrName_eq, strToLower_eq hzero, List.map_append]
  rfl

/-- The key of a header has all the spellings of its name. -/
theorem formatHdrName_eq_iff {name name' : List UInt8} (h : 0 ∉ name) :
    formatHdrName name' = formatHdrName name ↔ SameName name' name := by
  by_cases h' : 0 ∈ name'
  · have hkey : 0 ∈ formatHdrName name' := by
      rw [formatHdrName_eq, zero_mem_strToLower]
      exact List.mem_append_left _ (zero_mem_hdrName.mpr h')
    have hmap : ∀ {s : List UInt8}, 0 ∈ s.map toLower ↔ 0 ∈ s := by
      simp [toLower_eq_zero_iff]
    refine iff_of_false (fun heq => ?_) fun heq => ?_
    · rw [heq, formatHdrName_eq, zero_mem_strToLower, List.mem_append, zero_mem_hdrName] at hkey
      simp [h, zero_ne_colon] at hkey
    · rw [SameName] at heq
      exact h (zero_mem_hdrName.mp (hmap.mp (heq ▸ hmap.mpr (zero_mem_hdrName.mpr h'))))
  · rw [formatHdrName_of_zero_not_mem h, formatHdrName_of_zero_not_mem h', SameName]
    exact List.append_left_inj _

theorem sameName_formatHdrName {name : List UInt8} (h : 0 ∉ name) :
    SameName (formatHdrName name) name := by
  rw [SameName, formatHdrName_of_zero_not_mem h, hdrName, List.getLast?_concat, if_pos rfl,
    List.dropLast_concat, List.map_map]
  exact List.map_congr_left fun c _ => toLower_toLower c

/-! ### Lines -/

theorem splitHeader_lineText (line : List UInt8) : splitHeader line =
    match (lineText line).findIdx? fun c => c == colon || c == space with
    | none => none
    | some i =>
        if (lineText line).length ≤ i + 2 then none
        else some ((lineText line).take i, (lineText line).drop (i + 2)) := rfl

theorem findIdx?_delimiter {name : List UInt8} (hcolon : colon ∉ name) (hspace : space ∉ name)
    (rest : List UInt8) :
    (name ++ rest).findIdx? (fun c => c == colon || c == space) =
      (rest.findIdx? fun c => c == colon || c == space).map (· + name.length) := by
  have hnone : name.findIdx? (fun c => c == colon || c == space) = none := by
    rw [List.findIdx?_eq_none_iff]
    intro c hc
    have hc' : c ≠ colon := fun heq => hcolon (heq ▸ hc)
    have hc'' : c ≠ space := fun heq => hspace (heq ▸ hc)
    simp [hc', hc'']
  rw [List.findIdx?_append, hnone]
  rfl

theorem cutString_colon {name : List UInt8} (hcolon : colon ∉ name) (rest : List UInt8) :
    cutString [colon] (name ++ rest) =
      (cutString [colon] rest).map fun p => (name ++ p.1, p.2) := by
  refine cutString_append fun u v heq hv hprefix => ?_
  obtain ⟨c, v, rfl⟩ := List.exists_cons_of_ne_nil hv
  rw [List.cons_append, List.cons_prefix_cons] at hprefix
  rw [heq, hprefix.1] at hcolon
  exact hcolon (List.mem_append_right _ List.mem_cons_self)

/-- The two cuts of a plain line are the same. -/
theorem PlainLine.splitHeader_eq {line : List UInt8} (h : PlainLine line) :
    splitHeader line = lineField line := by
  obtain ⟨name, hcolon, hspace, htext⟩ := h
  have hcut : ∀ rest, cutString [colon] (name ++ colon :: rest) = some (name, rest) := by
    intro rest
    have hself := cutString_append_self (List.cons_ne_nil colon []) rest
    rw [List.singleton_append] at hself
    rw [cutString_colon hcolon, hself, Option.map_some, List.append_nil]
  have hfind : ∀ rest, (name ++ colon :: rest).findIdx? (fun c => c == colon || c == space) =
      some name.length := by
    intro rest
    rw [findIdx?_delimiter hcolon hspace, List.findIdx?_cons, if_pos (by rfl), Option.map_some,
      Nat.zero_add]
  rw [splitHeader_lineText, lineField]
  rcases htext with htext | htext | ⟨value, htext⟩
  · rw [htext, ← List.append_nil name, findIdx?_delimiter hcolon hspace, cutString_colon hcolon]
    rfl
  · rw [htext, hfind, hcut]
    simp
  · rw [htext, hfind, hcut]
    by_cases hvalue : value = []
    · simp [hvalue]
    · have hpos := List.length_pos_iff.mpr hvalue
      have hlength : ¬ (name ++ colon :: space :: value).length ≤ name.length + 2 := by
        simp only [List.length_append, List.length_cons]
        omega
      simp only [if_neg hlength]
      simp [List.drop_append, hvalue]

/-! ### Runs -/

def HeaderEdit.run (headers : HeaderMap) : HeaderEdit → HeaderMap
  | .set name value => Http.setHeader headers name value
  | .remove name => Http.removeHeader headers name

theorem HeaderCall.run_eq {call : HeaderCall}
    (h : ∀ line, call = .addHeaderFromStr line → PlainLine line) (headers : HeaderMap) :
    call.run headers = call.edits.foldl HeaderEdit.run headers := by
  cases call with
  | setHeader name value => rfl
  | setHeaders added =>
    rw [edits, List.foldl_map]
    rfl
  | addHeaderFromStr line =>
    rw [run, Http.addHeaderFromStr, (h line rfl).splitHeader_eq, edits]
    cases lineField line <;> rfl
  | removeHeader name => rfl

theorem HeaderCall.runAll_eq {calls : List HeaderCall}
    (h : ∀ line, .addHeaderFromStr line ∈ calls → PlainLine line) :
    runAll calls = (calls.flatMap edits).foldl HeaderEdit.run .empty := by
  rw [runAll, List.foldl_flatMap]
  refine List.foldl_ext _ _ _ fun headers call hcall => ?_
  exact run_eq (fun line heq => h line (heq ▸ hcall)) headers

namespace HeaderEdit

variable {name : List UInt8}

theorem find_run (hname : 0 ∉ name) {headers : HeaderMap} {e : HeaderEdit}
    (h : e.Clean name (headers.find (formatHdrName name))) :
    (e.run headers).find (formatHdrName name) =
      e.next name (headers.find (formatHdrName name)) := by
  cases e with
  | set name' value =>
    rw [run, next, Http.setHeader, UnorderedMap.find_emplace]
    by_cases hsame : SameName name' name
    · have hkey := (formatHdrName_eq_iff hname).mpr hsame
      rw [if_pos hkey.symm, if_pos hsame, hkey]
      rcases h hsame with hnone | hsome
      · rw [hnone, Option.getD_none]
      · rw [hsome, Option.getD_some]
    · have hkey := (formatHdrName_eq_iff hname).not.mpr hsame
      rw [if_neg (Ne.symm hkey), if_neg hsame]
  | remove name' =>
    rw [run, next, Http.removeHeader]
    by_cases hkey : name' = formatHdrName name
    · rw [hkey, UnorderedMap.find_erase_self, if_pos (sameName_formatHdrName hname)]
    · rw [UnorderedMap.find_erase_of_ne _ (Ne.symm hkey)]
      split
      · rename_i hsame
        exact (h hsame).resolve_right hkey
      · rfl

/-- A run of edits keeps, under the key of a name, the value that was set last. -/
theorem find_foldl_run (hname : 0 ∉ name) {edits : List HeaderEdit}
    (h : ∀ before e after, edits = before ++ e :: after → e.Clean name (lastSet name before)) :
    (edits.foldl run .empty).find (formatHdrName name) = lastSet name edits := by
  induction edits using List.reverseRecOn with
  | nil => rfl
  | append_singleton edits e ih =>
    have ih := ih fun before e' after heq =>
      h before e' (after ++ [e]) (by rw [heq, List.append_assoc, List.cons_append])
    have hclean := h edits e [] rfl
    rw [← ih] at hclean
    rw [List.foldl_concat, lastSet, List.foldl_concat, find_run hname hclean, ih, lastSet]

end HeaderEdit

/-! ### The law of the headers -/

theorem lineField_of_value {line field value : List UInt8} (hcolon : colon ∉ field)
    (htext : lineText line = field ++ colon :: space :: value) :
    lineField line = if value = [] then none else some (field, value) := by
  have hself := cutString_append_self (List.cons_ne_nil colon []) (space :: value)
  rw [List.singleton_append] at hself
  rw [lineField, htext, cutString_colon hcolon, hself, Option.map_some]
  simp

theorem addHeaderFromStr_of_value {line field value : List UInt8} (hcolon : colon ∉ field)
    (hspace : space ∉ field) (htext : lineText line = field ++ colon :: space :: value)
    (headers : HeaderMap) : acceptsHeader line = decide (value ≠ []) ∧
      addHeaderFromStr headers line =
        if value = [] then headers else setHeader headers field value := by
  have hplain : PlainLine line := ⟨field, hcolon, hspace, .inr (.inr ⟨value, htext⟩)⟩
  rw [acceptsHeader, addHeaderFromStr, hplain.splitHeader_eq, lineField_of_value hcolon htext]
  by_cases hvalue : value = [] <;> simp [hvalue]

theorem addHeaderFromStr_of_colon {line field : List UInt8} (hcolon : colon ∉ field)
    (hspace : space ∉ field) (htext : lineText line = field ++ [colon]) (headers : HeaderMap) :
    acceptsHeader line = false ∧ addHeaderFromStr headers line = headers := by
  have hplain : PlainLine line := ⟨field, hcolon, hspace, .inr (.inl htext)⟩
  have hself := cutString_append_self (List.cons_ne_nil colon []) []
  have hnone : lineField line = none := by
    rw [lineField, htext, cutString_colon hcolon]
    rw [List.append_nil] at hself
    rw [hself]
    rfl
  rw [acceptsHeader, addHeaderFromStr, hplain.splitHeader_eq, hnone]
  exact ⟨rfl, rfl⟩

namespace HeaderCall

/-- A name has the value that was set last under a spelling of it, and none otherwise. A line with
a value sets it, one without is refused. -/
theorem getHeader_runAll (calls : List HeaderCall) (name : List UInt8) (hname : 0 ∉ name)
    (hlines : ∀ line, .addHeaderFromStr line ∈ calls → PlainLine line)
    (hclean : ∀ before e after, calls.flatMap edits = before ++ e :: after →
      e.Clean name (lastSet name before)) :
    getHeader (runAll calls) name = lastSet name (calls.flatMap edits) ∧
      findHeader (runAll calls) name = (lastSet name (calls.flatMap edits)).getD [] ∧
      ∀ line field, colon ∉ field → space ∉ field →
        (∀ value, lineText line = field ++ colon :: space :: value →
          acceptsHeader line = decide (value ≠ []) ∧
            run (runAll calls) (.addHeaderFromStr line) =
              if value = [] then runAll calls else Http.setHeader (runAll calls) field value) ∧
        (lineText line = field ++ [colon] → acceptsHeader line = false ∧
          run (runAll calls) (.addHeaderFromStr line) = runAll calls) := by
  have hfind : (runAll calls).find (formatHdrName name) = lastSet name (calls.flatMap edits) := by
    rw [runAll_eq hlines, HeaderEdit.find_foldl_run hname hclean]
  refine ⟨hfind, congrArg (Option.getD · []) hfind, fun line field hcolon hspace => ⟨?_, ?_⟩⟩
  · exact fun value htext => addHeaderFromStr_of_value hcolon hspace htext _
  · exact fun htext => addHeaderFromStr_of_colon hcolon hspace htext _

/-- `Ac` is set to `a`, removed and set by `Ac: b`; then `AC` has `b`. -/
theorem getHeader_runAll_accept :
    getHeader (runAll [.setHeader [65, 99] [97], .removeHeader [97, 99, 58],
      .addHeaderFromStr [65, 99, 58, 32, 98]]) [65, 67] = some [98] := by
  refine (getHeader_runAll _ _ (by decide) ?_ ?_).1.trans (by decide)
  · intro line hline
    obtain rfl : line = [65, 99, 58, 32, 98] := by simpa using hline
    exact ⟨[65, 99], by decide, by decide, .inr (.inr ⟨[98], rfl⟩)⟩
  · have hedits : List.flatMap edits [.setHeader [65, 99] [97], .removeHeader [97, 99, 58],
        .addHeaderFromStr [65, 99, 58, 32, 98]] =
        [.set [65, 99] [97], .remove [97, 99, 58], .set [65, 99] [98]] := by rfl
    rw [hedits]
    rintro (_ | ⟨_, _ | ⟨_, _ | ⟨_, before⟩⟩⟩) e after heq
    · cases heq
      exact fun _ => .inl rfl
    · cases heq
      exact fun _ => .inr rfl
    · cases heq
      exact fun _ => .inl (by decide)
    · simp at heq

end HeaderCall

/-- `Accept:` and `Accept: ` are refused. -/
theorem not_acceptsHeader_empty : acceptsHeader [65, 99, 99, 101, 112, 116, 58] = false ∧
    acceptsHeader [65, 99, 99, 101, 112, 116, 58, 32] = false := by decide

end Sihd.Http
