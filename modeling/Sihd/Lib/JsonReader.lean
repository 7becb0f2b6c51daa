import Sihd.Lib.Json

/-!
# A reader of JSON

`read` reads the value of a text, by recursive descent with a bound on the
depth. It reads every text of a value, whatever the blanks and the escapes in
it; a value has therefore no text in common with another one.
-/

namespace JsonText

def skipBlank (s : List UInt8) : List UInt8 := s.dropWhile isBlank

def prepend (c? : Option UInt8) (p? : Option (List UInt8 × List UInt8)) :
    Option (List UInt8 × List UInt8) :=
  match c?, p? with
  | some c, some p => some (c :: p.1, p.2)
  | _, _ => none

/-- The characters of a string, up to the quote behind them, and what is left. -/
def readChars : List UInt8 → Option (List UInt8 × List UInt8)
  | [] => none
  | c :: s =>
      if c = quote then some ([], s)
      else if c = backslash then
        match s with
        | [] => none
        | e :: s =>
            if e = letterU then
              match s with
              | _ :: _ :: a :: b :: s => prepend (escaped? a b) (readChars s)
              | _ => none
            else prepend (shortEscape? e) (readChars s)
      else prepend (some c) (readChars s)

def readNat (s : List UInt8) : Option (Nat × List UInt8) :=
  let digits := s.takeWhile isDecimalDigit
  if digits = [] then none else some (digitsValue digits, s.drop digits.length)

def readInt (s : List UInt8) : Option (JsonValue × List UInt8) :=
  if s.head? = some minus then (readNat s.tail).map fun p => (.int (-p.1), p.2)
  else (readNat s).map fun p => (.int p.1, p.2)

def readScalar (s : List UInt8) : Option (JsonValue × List UInt8) :=
  if nullText.isPrefixOf s then some (.null, s.drop 4)
  else if (boolText true).isPrefixOf s then some (.bool true, s.drop 4)
  else if (boolText false).isPrefixOf s then some (.bool false, s.drop 5)
  else readInt s

mutual

/-- The value at the start of a string, and what is left. -/
def readValue : Nat → List UInt8 → Option (JsonValue × List UInt8)
  | 0, _ => none
  | _ + 1, [] => none
  | n + 1, c :: s =>
      if c = quote then (readChars s).map fun p => (.string p.1, p.2)
      else if c = openArray then
        if (skipBlank s).head? = some closeArray then some (.array [], (skipBlank s).tail)
        else (readItems n s).map fun p => (.array p.1, p.2)
      else if c = openObject then
        if (skipBlank s).head? = some closeObject then some (.object [], (skipBlank s).tail)
        else (readMembers n s).map fun p => (.object p.1, p.2)
      else readScalar (c :: s)

def readItems : Nat → List UInt8 → Option (List JsonValue × List UInt8)
  | 0, _ => none
  | n + 1, s =>
      match readValue n (skipBlank s) with
      | none => none
      | some (v, s) =>
          match skipBlank s with
          | [] => none
          | c :: s =>
              if c = comma then (readItems n s).map fun p => (v :: p.1, p.2)
              else if c = closeArray then some ([v], s)
              else none

def readMembers : Nat → List UInt8 → Option (List (List UInt8 × JsonValue) × List UInt8)
  | 0, _ => none
  | n + 1, s =>
      match readChars (skipBlank s).tail with
      | none => none
      | some (k, s) =>
          match readValue n (skipBlank (skipBlank s).tail) with
          | none => none
          | some (v, s) =>
              match skipBlank s with
              | [] => none
              | c :: s =>
                  if c = comma then (readMembers n s).map fun p => ((k, v) :: p.1, p.2)
                  else if c = closeObject then some ([(k, v)], s)
                  else none

end

def read (s : List UInt8) : Option JsonValue :=
  match readValue (s.length + 1) (skipBlank s) with
  | some (v, r) => if skipBlank r = [] then some v else none
  | none => none

def escapeChar (c : UInt8) : List UInt8 :=
  if c = quote then [backslash, quote]
  else if c = backslash then [backslash, backslash]
  else if c < 32 then
    [backslash, letterU, 48, 48, hexDigit (c.toNat / 16), hexDigit (c.toNat % 16)]
  else [c]

theorem skipBlank_append {a s : List UInt8} (ha : Blank a)
    (hs : ∀ c, s.head? = some c → isBlank c = false) : skipBlank (a ++ s) = s := by
  rw [skipBlank, List.dropWhile_append_of_pos ha]
  cases s with
  | nil => rfl
  | cons c s => exact List.dropWhile_cons_of_neg (by simp [hs c rfl])

theorem readChars_of_chars {s w : List UInt8} (h : Chars s w) (r : List UInt8) :
    readChars (w ++ r) = some (s, r) := by
  induction h with
  | close =>
    rw [List.singleton_append, readChars.eq_def]
    rfl
  | plain hc hquote hbackslash _ ih =>
    rw [List.cons_append, readChars.eq_def]
    dsimp only
    rw [if_neg hquote, if_neg hbackslash, ih]
    rfl
  | @short c e s w he _ ih =>
    have hu : e ≠ letterU := by
      rintro rfl
      cases he
    rw [List.cons_append, List.cons_append, readChars.eq_def]
    dsimp only
    rw [if_neg (by decide), if_pos rfl, if_neg hu, he, ih]
    rfl
  | code hc _ _ ih =>
    simp only [List.cons_append]
    rw [readChars.eq_def]
    dsimp only
    rw [if_neg (by decide), if_pos rfl, if_pos rfl, hc, ih]
    rfl

theorem readNat_decimal {n : Nat} {r : List UInt8}
    (hr : ∀ c, r.head? = some c → isDecimalDigit c = false) :
    readNat (decimal n ++ r) = some (n, r) := by
  simp only [readNat, takeWhile_decimal hr]
  rw [if_neg (decimal_ne_nil n), digitsValue_decimal, List.drop_left]

theorem head?_decimal {n : Nat} {r : List UInt8} {c : UInt8}
    (h : (decimal n ++ r).head? = some c) : isDecimalDigit c = true := by
  cases hd : decimal n with
  | nil => exact absurd hd (decimal_ne_nil n)
  | cons d s =>
    rw [hd] at h
    obtain rfl := Option.some.inj h
    exact isDecimalDigit_of_mem (n := n) (by rw [hd]; exact List.mem_cons_self)

theorem readInt_decimalInt {z : Int} {r : List UInt8}
    (hr : ∀ c, r.head? = some c → isDecimalDigit c = false) :
    readInt (decimalInt z ++ r) = some (.int z, r) := by
  rw [decimalInt, readInt]
  split
  · rename_i hz
    have habs : -(z.natAbs : Int) = z := by omega
    rw [List.cons_append, List.head?_cons, if_pos rfl, List.tail_cons, readNat_decimal hr,
      Option.map_some, habs]
  · rename_i hz
    have habs : (z.natAbs : Int) = z := by omega
    have hminus : (decimal z.natAbs ++ r).head? ≠ some minus := by
      intro heq
      have hdigit := head?_decimal heq
      cases hdigit
    rw [if_neg hminus, readNat_decimal hr, Option.map_some, habs]

/-- A character that a number starts with. -/
def isIntStart (c : UInt8) : Bool := isDecimalDigit c || c == minus

theorem decimalInt_eq_cons (z : Int) :
    ∃ c s, decimalInt z = c :: s ∧ isIntStart c = true := by
  rw [decimalInt]
  split
  · exact ⟨minus, _, rfl, rfl⟩
  · cases hd : decimal z.natAbs with
    | nil => exact absurd hd (decimal_ne_nil _)
    | cons c s =>
      refine ⟨c, s, rfl, ?_⟩
      have hc : isDecimalDigit c = true :=
        isDecimalDigit_of_mem (n := z.natAbs) (by rw [hd]; exact List.mem_cons_self)
      rw [isIntStart, hc]
      rfl

/-! ### Values -/

/-- A character that a text of a value starts with. -/
structure Starts (c : UInt8) : Prop where
  not_blank : isBlank c = false
  ne_closeArray : c ≠ closeArray

theorem ne_of_isIntStart {c d : UInt8} (h : isIntStart c = true) (hd : isIntStart d = false) :
    c ≠ d := by
  rintro rfl
  rw [h] at hd
  cases hd

theorem starts_of_isIntStart {c : UInt8} (h : isIntStart c = true) : Starts c where
  not_blank := by
    simp only [isBlank, Bool.or_eq_false_iff, beq_eq_false_iff_ne]
    exact ⟨⟨⟨ne_of_isIntStart h rfl, ne_of_isIntStart h rfl⟩, ne_of_isIntStart h rfl⟩,
      ne_of_isIntStart h rfl⟩
  ne_closeArray := ne_of_isIntStart h rfl

theorem Text.exists_cons {v : JsonValue} {w : List UInt8} (h : Text v w) :
    ∃ c s, w = c :: s ∧ Starts c := by
  cases h with
  | null => exact ⟨_, _, rfl, rfl, by decide⟩
  | bool b => cases b <;> exact ⟨_, _, rfl, rfl, by decide⟩
  | int z =>
    obtain ⟨c, s, heq, hc⟩ := decimalInt_eq_cons z
    exact ⟨c, s, heq, starts_of_isIntStart hc⟩
  | string hs =>
    obtain ⟨-, body, -, rfl⟩ := hs
    exact ⟨_, _, rfl, rfl, by decide⟩
  | emptyArray | array | emptyObject | object => exact ⟨_, _, rfl, rfl, by decide⟩

/-- No digit goes on with a number. -/
def NoDigit (r : List UInt8) : Prop := ∀ c, r.head? = some c → isDecimalDigit c = false

theorem noDigit_append {b : List UInt8} (hb : Blank b) {c : UInt8}
    (hc : isDecimalDigit c = false) (r : List UInt8) : NoDigit (b ++ c :: r) := by
  intro d hd
  cases b with
  | nil =>
    obtain rfl := Option.some.inj hd
    exact hc
  | cons e b =>
    obtain rfl := Option.some.inj hd
    have hblank := hb e List.mem_cons_self
    simp only [isBlank, Bool.or_eq_true, beq_iff_eq] at hblank
    rcases hblank with ((rfl | rfl) | rfl) | rfl <;> rfl

theorem skipBlank_text {v : JsonValue} {a w : List UInt8} (ha : Blank a) (h : Text v w)
    (r : List UInt8) : skipBlank (a ++ (w ++ r)) = w ++ r := by
  obtain ⟨c, s, rfl, hc⟩ := h.exists_cons
  refine skipBlank_append ha fun d hd => ?_
  obtain rfl := Option.some.inj hd
  exact hc.not_blank

theorem skipBlank_cons {a : List UInt8} (ha : Blank a) {c : UInt8} (hc : isBlank c = false)
    (r : List UInt8) : skipBlank (a ++ c :: r) = c :: r := by
  refine skipBlank_append ha fun d hd => ?_
  obtain rfl := Option.some.inj hd
  exact hc

theorem Items.head_ne {l : List JsonValue} {w : List UInt8} (h : Items l w) (r : List UInt8) :
    (skipBlank (w ++ r)).head? ≠ some closeArray := by
  cases h with
  | last ha hv hb =>
    simp only [List.append_assoc]
    rw [skipBlank_text ha hv]
    obtain ⟨c, s, rfl, hc⟩ := hv.exists_cons
    exact fun heq => hc.ne_closeArray (Option.some.inj heq)
  | cons ha hv hb hl =>
    simp only [List.append_assoc]
    rw [skipBlank_text ha hv]
    obtain ⟨c, s, rfl, hc⟩ := hv.exists_cons
    exact fun heq => hc.ne_closeArray (Option.some.inj heq)

theorem skipBlank_string {k a kw : List UInt8} (ha : Blank a) (h : StringText k kw)
    (r : List UInt8) : ∃ body, Chars k body ∧ kw = quote :: body ∧
      skipBlank (a ++ (kw ++ r)) = quote :: (body ++ r) := by
  obtain ⟨-, body, hbody, rfl⟩ := h
  exact ⟨body, hbody, rfl, skipBlank_cons ha rfl _⟩

theorem Members.head_ne {l : List (List UInt8 × JsonValue)} {w : List UInt8}
    (h : Members l w) (r : List UInt8) :
    (skipBlank (w ++ r)).head? ≠ some closeObject := by
  cases h with
  | last ha hk =>
    rw [List.append_assoc, List.append_assoc]
    obtain ⟨body, -, -, hskip⟩ := skipBlank_string ha hk _
    rw [hskip]
    exact fun heq => by cases heq
  | cons ha hk =>
    rw [List.append_assoc, List.append_assoc]
    obtain ⟨body, -, -, hskip⟩ := skipBlank_string ha hk _
    rw [hskip]
    exact fun heq => by cases heq

theorem readScalar_decimalInt {z : Int} {r : List UInt8} (hr : NoDigit r) :
    readScalar (decimalInt z ++ r) = some (.int z, r) := by
  obtain ⟨c, s, heq, hc⟩ := decimalInt_eq_cons z
  have hnot {d : UInt8} {t : List UInt8} (hd : isIntStart d = false) :
      ¬ (d :: t).isPrefixOf (decimalInt z ++ r) = true := by
    rw [heq, List.cons_append, List.isPrefixOf, Bool.and_eq_true, beq_iff_eq]
    exact fun h => ne_of_isIntStart hc hd h.1.symm
  rw [readScalar, nullText, boolText, boolText, if_neg (hnot rfl), if_neg (hnot rfl),
    if_neg (hnot rfl), readInt_decimalInt hr]

mutual

theorem readValue_of_text {v : JsonValue} {w : List UInt8} (h : Text v w) {n : Nat}
    (hn : w.length < n) {r : List UInt8} (hr : NoDigit r) :
    readValue n (w ++ r) = some (v, r) := by
  obtain _ | n := n
  · cases hn
  cases h with
  | null => rfl
  | bool b => cases b <;> rfl
  | int z =>
    obtain ⟨c, s, heq, hc⟩ := decimalInt_eq_cons z
    have hread := readScalar_decimalInt (z := z) hr
    rw [heq, List.cons_append] at hread ⊢
    rw [readValue, if_neg (ne_of_isIntStart hc rfl), if_neg (ne_of_isIntStart hc rfl),
      if_neg (ne_of_isIntStart hc rfl), hread]
  | string hs =>
    obtain ⟨-, body, hbody, rfl⟩ := hs
    rw [List.cons_append, readValue, if_pos rfl, readChars_of_chars hbody]
    rfl
  | emptyArray ha =>
    rw [List.cons_append, List.append_assoc, readValue, if_neg (by decide), if_pos rfl,
      List.singleton_append, skipBlank_cons ha rfl]
    rfl
  | array hl =>
    rw [List.length_cons] at hn
    rw [List.cons_append, readValue, if_neg (by decide), if_pos rfl, if_neg (hl.head_ne r),
      readItems_of_items hl (Nat.lt_of_succ_lt_succ hn)]
    rfl
  | emptyObject ha =>
    rw [List.cons_append, List.append_assoc, readValue, if_neg (by decide),
      if_neg (by decide), if_pos rfl, List.singleton_append, skipBlank_cons ha rfl]
    rfl
  | object _ hl =>
    rw [List.length_cons] at hn
    rw [List.cons_append, readValue, if_neg (by decide), if_neg (by decide), if_pos rfl,
      if_neg (hl.head_ne r), readMembers_of_members hl (Nat.lt_of_succ_lt_succ hn)]
    rfl

theorem readItems_of_items {l : List JsonValue} {w : List UInt8} (h : Items l w) {n : Nat}
    (hn : w.length < n) {r : List UInt8} : readItems n (w ++ r) = some (l, r) := by
  obtain _ | n := n
  · cases hn
  cases h with
  | last ha hv hb =>
    simp only [List.length_append, List.length_cons] at hn
    simp only [List.append_assoc, List.singleton_append]
    have hread := readValue_of_text hv (n := n) (by omega) (noDigit_append (c := closeArray) hb rfl r)
    rw [readItems, skipBlank_text ha hv, hread]
    dsimp only
    rw [skipBlank_cons hb rfl]
    rfl
  | @cons v l a w b w' ha hv hb hl =>
    simp only [List.length_append, List.length_cons] at hn
    simp only [List.append_assoc, List.cons_append]
    have hread := readValue_of_text hv (n := n) (by omega) (noDigit_append (c := comma) hb rfl (w' ++ r))
    rw [readItems, skipBlank_text ha hv, hread]
    dsimp only
    rw [skipBlank_cons hb rfl]
    dsimp only
    rw [if_pos rfl, readItems_of_items hl (by omega)]
    rfl

theorem readMembers_of_members {l : List (List UInt8 × JsonValue)} {w : List UInt8}
    (h : Members l w) {n : Nat} (hn : w.length < n) {r : List UInt8} :
    readMembers n (w ++ r) = some (l, r) := by
  obtain _ | n := n
  · cases hn
  cases h with
  | last ha hk hb hc hv hd =>
    simp only [List.length_append, List.length_cons] at hn
    simp only [List.append_assoc, List.cons_append, List.nil_append]
    obtain ⟨body, hbody, -, hskip⟩ := skipBlank_string ha hk _
    have hread := readValue_of_text hv (n := n) (by omega) (noDigit_append (c := closeObject) hd rfl r)
    rw [readMembers, hskip, List.tail_cons, readChars_of_chars hbody]
    dsimp only
    rw [skipBlank_cons hb rfl, List.tail_cons, skipBlank_text hc hv, hread]
    dsimp only
    rw [skipBlank_cons hd rfl]
    rfl
  | @cons k v l a kw b c w d w' ha hk hb hc hv hd hl =>
    simp only [List.length_append, List.length_cons] at hn
    simp only [List.append_assoc, List.cons_append]
    obtain ⟨body, hbody, -, hskip⟩ := skipBlank_string ha hk _
    have hread := readValue_of_text hv (n := n) (by omega) (noDigit_append (c := comma) hd rfl (w' ++ r))
    rw [readMembers, hskip, List.tail_cons, readChars_of_chars hbody]
    dsimp only
    rw [skipBlank_cons hb rfl, List.tail_cons, skipBlank_text hc hv, hread]
    dsimp only
    rw [skipBlank_cons hd rfl]
    dsimp only
    rw [if_pos rfl, readMembers_of_members hl (by omega)]
    rfl

end

end JsonText
