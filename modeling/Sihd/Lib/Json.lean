import Sihd.Lib.Decimal
import Sihd.Lib.Percent
import Mathlib.Data.List.Nodup

/-!
# JSON

The values of JSON without fractions, and the texts of a value: blanks stand
between the tokens, a character of a string is written as itself, as a short
escape or by its code, and an object has each of its keys once.
-/

inductive JsonValue where
  | null
  | bool (b : Bool)
  | int (z : Int)
  | string (s : List UInt8)
  | array (l : List JsonValue)
  | object (l : List (List UInt8 × JsonValue))

namespace JsonText

/-- `"`. -/
abbrev quote : UInt8 := 34

/-- `,`. -/
abbrev comma : UInt8 := 44

/-- `:`. -/
abbrev colon : UInt8 := 58

/-- `[`. -/
abbrev openArray : UInt8 := 91

/-- `]`. -/
abbrev closeArray : UInt8 := 93

/-- `\`. -/
abbrev backslash : UInt8 := 92

/-- `u`. -/
abbrev letterU : UInt8 := 117

/-- `{`. -/
abbrev openObject : UInt8 := 123

/-- `}`. -/
abbrev closeObject : UInt8 := 125

def nullText : List UInt8 := [110, 117, 108, 108]

def boolText : Bool → List UInt8
  | true => [116, 114, 117, 101]
  | false => [102, 97, 108, 115, 101]

/-- The bytes of a text in UTF-8. -/
def ValidUtf8 (s : List UInt8) : Prop := ∃ t : String, t.toUTF8.data.toList = s

/-- Space, tabulation, line feed and carriage return. -/
def isBlank (c : UInt8) : Bool := c == 32 || c == 9 || c == 10 || c == 13

def Blank (w : List UInt8) : Prop := ∀ c ∈ w, isBlank c = true

/-- The character of a short escape. -/
def shortEscape? (e : UInt8) : Option UInt8 :=
  if e = quote then some quote
  else if e = backslash then some backslash
  else if e = 47 then some 47
  else if e = 98 then some 8
  else if e = 102 then some 12
  else if e = 110 then some 10
  else if e = 114 then some 13
  else if e = 116 then some 9
  else none

/-- The text of the characters of a string, with the quote behind them. -/
inductive Chars : List UInt8 → List UInt8 → Prop where
  | close : Chars [] [quote]
  | plain {c : UInt8} {s w : List UInt8} :
      32 ≤ c → c ≠ quote → c ≠ backslash → Chars s w → Chars (c :: s) (c :: w)
  | short {c e : UInt8} {s w : List UInt8} :
      shortEscape? e = some c → Chars s w → Chars (c :: s) (backslash :: e :: w)
  | code {c a b : UInt8} {s w : List UInt8} :
      escaped? a b = some c → c < 128 → Chars s w →
        Chars (c :: s) (backslash :: letterU :: 48 :: 48 :: a :: b :: w)

def StringText (s w : List UInt8) : Prop :=
  ValidUtf8 s ∧ ∃ body, Chars s body ∧ w = quote :: body

mutual

/-- The texts of a value, without blanks around them. -/
inductive Text : JsonValue → List UInt8 → Prop where
  | null : Text .null nullText
  | bool (b : Bool) : Text (.bool b) (boolText b)
  | int (z : Int) : Text (.int z) (decimalInt z)
  | string {s w : List UInt8} : StringText s w → Text (.string s) w
  | emptyArray {a : List UInt8} :
      Blank a → Text (.array []) (openArray :: (a ++ [closeArray]))
  | array {l : List JsonValue} {w : List UInt8} :
      Items l w → Text (.array l) (openArray :: w)
  | emptyObject {a : List UInt8} :
      Blank a → Text (.object []) (openObject :: (a ++ [closeObject]))
  | object {l : List (List UInt8 × JsonValue)} {w : List UInt8} :
      (l.map Prod.fst).Nodup → Members l w → Text (.object l) (openObject :: w)

/-- The texts of the items of an array, with the bracket behind them. -/
inductive Items : List JsonValue → List UInt8 → Prop where
  | last {v : JsonValue} {a w b : List UInt8} :
      Blank a → Text v w → Blank b → Items [v] (a ++ (w ++ (b ++ [closeArray])))
  | cons {v : JsonValue} {l : List JsonValue} {a w b w' : List UInt8} :
      Blank a → Text v w → Blank b → Items l w' →
        Items (v :: l) (a ++ (w ++ (b ++ comma :: w')))

/-- The texts of the members of an object, with the brace behind them. -/
inductive Members : List (List UInt8 × JsonValue) → List UInt8 → Prop where
  | last {k : List UInt8} {v : JsonValue} {a kw b c w d : List UInt8} :
      Blank a → StringText k kw → Blank b → Blank c → Text v w → Blank d →
        Members [(k, v)] (a ++ (kw ++ (b ++ colon :: (c ++ (w ++ (d ++ [closeObject]))))))
  | cons {k : List UInt8} {v : JsonValue} {l : List (List UInt8 × JsonValue)}
      {a kw b c w d w' : List UInt8} :
      Blank a → StringText k kw → Blank b → Blank c → Text v w → Blank d → Members l w' →
        Members ((k, v) :: l)
          (a ++ (kw ++ (b ++ colon :: (c ++ (w ++ (d ++ comma :: w'))))))

end

mutual

/-- The strings and the keys of a value are texts, and no object has a key
twice. -/
def WellFormed : JsonValue → Prop
  | .null => True
  | .bool _ => True
  | .int _ => True
  | .string s => ValidUtf8 s
  | .array l => WellFormedItems l
  | .object l => (l.map Prod.fst).Nodup ∧ WellFormedMembers l

def WellFormedItems : List JsonValue → Prop
  | [] => True
  | v :: l => WellFormed v ∧ WellFormedItems l

def WellFormedMembers : List (List UInt8 × JsonValue) → Prop
  | [] => True
  | (k, v) :: l => ValidUtf8 k ∧ WellFormed v ∧ WellFormedMembers l

end

mutual

/-- The integers of a value have 64 bits, signed or not. -/
def Fits : JsonValue → Prop
  | .null => True
  | .bool _ => True
  | .int z => -2 ^ 63 ≤ z ∧ z < 2 ^ 64
  | .string _ => True
  | .array l => FitsItems l
  | .object l => FitsMembers l

def FitsItems : List JsonValue → Prop
  | [] => True
  | v :: l => Fits v ∧ FitsItems l

def FitsMembers : List (List UInt8 × JsonValue) → Prop
  | [] => True
  | (_, v) :: l => Fits v ∧ FitsMembers l

end

end JsonText
