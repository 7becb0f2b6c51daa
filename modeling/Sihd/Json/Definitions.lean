import Sihd.Lib.Json

/-!
# Json values

A `Json` owns its value or refers to an element of a parsed document. `dump`
writes either kind, and `==` compares the types of two values before what they
hold. What is taken from simdjson is a parameter: its parser, its writer of an
element without indentation, and how its string builder writes strings and
doubles.
-/

namespace Sihd

open JsonText

/-- An element of a parsed document. -/
inductive Element where
  | null
  | bool (b : Bool)
  | int64 (z : Int64)
  | uint64 (n : UInt64)
  | double (x : Float)
  | string (s : List UInt8)
  | array (l : List Element)
  | object (l : List (List UInt8 × Element))

inductive Json where
  | null
  | bool (b : Bool)
  | int64 (z : Int64)
  | uint64 (n : UInt64)
  | double (x : Float)
  | string (s : List UInt8)
  | array (l : List Json)
  | object (l : List (List UInt8 × Json))
  | dom (e : Element)
  | discarded

/-- The string builder: `escape_and_append_with_quotes` and the text of a
double. -/
structure StringBuilder where
  escape : List UInt8 → List UInt8
  appendDouble : Float → List UInt8

structure Simdjson extends StringBuilder where
  parse : List UInt8 → Option Element
  minify : Element → List UInt8

namespace Json

inductive JsonType where
  | null
  | bool
  | int
  | uint
  | float
  | string
  | array
  | object
  | discarded
  deriving DecidableEq

def domType : Element → JsonType
  | .null => .null
  | .bool _ => .bool
  | .int64 _ => .int
  | .uint64 _ => .uint
  | .double _ => .float
  | .string _ => .string
  | .array _ => .array
  | .object _ => .object

def type : Json → JsonType
  | .null => .null
  | .bool _ => .bool
  | .int64 _ => .int
  | .uint64 _ => .uint
  | .double _ => .float
  | .string _ => .string
  | .array _ => .array
  | .object _ => .object
  | .dom e => domType e
  | .discarded => .discarded

/-! ### What a value holds -/

def getBool : Json → Option Bool
  | .bool b => some b
  | .dom (.bool b) => some b
  | _ => none

def getInt64 : Json → Option Int64
  | .int64 z => some z
  | .uint64 n => some n.toInt64
  | .double x => some x.toInt64
  | .dom (.int64 z) => some z
  | .dom (.uint64 n) => some n.toInt64
  | .dom (.double x) => some x.toInt64
  | _ => none

def getUInt64 : Json → Option UInt64
  | .uint64 n => some n
  | .int64 z => some z.toUInt64
  | .double x => some x.toUInt64
  | .dom (.uint64 n) => some n
  | .dom (.int64 z) => some z.toUInt64
  | .dom (.double x) => some x.toUInt64
  | _ => none

def getDouble : Json → Option Float
  | .double x => some x
  | .int64 z => some z.toFloat
  | .uint64 n => some n.toFloat
  | .dom (.double x) => some x
  | .dom (.int64 z) => some z.toFloat
  | .dom (.uint64 n) => some n.toFloat
  | _ => none

def getString : Json → Option (List UInt8)
  | .string s => some s
  | .dom (.string s) => some s
  | _ => none

/-- The size that simdjson keeps of an array or an object, in 24 bits. -/
def domSize (n : Nat) : Nat := min n 0xFFFFFF

def size : Json → Nat
  | .array l => l.length
  | .object l => l.length
  | .dom (.array l) => domSize l.length
  | .dom (.object l) => domSize l.length
  | _ => 0

/-- What `begin` and `end` go through of an array. -/
def items : Json → List Json
  | .array l => l
  | .dom (.array l) => l.map .dom
  | _ => []

/-- What `begin` and `end` go through of an object. -/
def members : Json → List (List UInt8 × Json)
  | .object l => l
  | .dom (.object l) => l.map fun m => (m.1, .dom m.2)
  | _ => []

theorem sizeOf_item {a b : Json} (h : b ∈ a.items) : sizeOf b < sizeOf a := by
  rw [items.eq_def] at h
  split at h
  · rename_i l
    have hlt := List.sizeOf_lt_of_mem h
    rw [Json.array.sizeOf_spec]
    omega
  · rename_i l
    obtain ⟨e, he, rfl⟩ := List.mem_map.mp h
    have hlt := List.sizeOf_lt_of_mem he
    rw [Json.dom.sizeOf_spec, Json.dom.sizeOf_spec, Element.array.sizeOf_spec]
    omega
  · cases h

theorem sizeOf_member {a : Json} {m : List UInt8 × Json} (h : m ∈ a.members) :
    sizeOf m.2 < sizeOf a := by
  rw [members.eq_def] at h
  split at h
  · rename_i l
    have hlt := List.sizeOf_lt_of_mem h
    obtain ⟨k, v⟩ := m
    rw [Prod.mk.sizeOf_spec] at hlt
    rw [Json.object.sizeOf_spec]
    dsimp only
    omega
  · rename_i l
    obtain ⟨⟨k, e⟩, he, rfl⟩ := List.mem_map.mp h
    have hlt := List.sizeOf_lt_of_mem he
    rw [Prod.mk.sizeOf_spec] at hlt
    rw [Json.dom.sizeOf_spec, Json.dom.sizeOf_spec, Element.object.sizeOf_spec]
    dsimp only
    omega
  · cases h

/-- `operator==`. -/
def beq (a b : Json) : Bool :=
  a.type == b.type && match a.type with
    | .null | .discarded => true
    | .bool => a.getBool == b.getBool
    | .int => a.getInt64 == b.getInt64
    | .uint => a.getUInt64 == b.getUInt64
    | .float => a.getDouble == b.getDouble
    | .string => a.getString == b.getString
    | .array =>
        a.size == b.size && (a.items.attach.zip b.items).all fun p => beq p.1.1 p.2
    | .object =>
        a.size == b.size && (a.members.attach.zip b.members).all fun p =>
          p.1.1.1 == p.2.1 && beq p.1.1.2 p.2.2
termination_by sizeOf a
decreasing_by
  · exact sizeOf_item p.1.2
  · exact sizeOf_member p.1.2

/-! ### Serialization -/

/-- `<discarded>`. -/
def discardedText : List UInt8 := [60, 100, 105, 115, 99, 97, 114, 100, 101, 100, 62]

/-- `_write_indent`. -/
def writeIndent (indent depth : Int32) : List UInt8 :=
  if indent < 0 then [] else 10 :: List.replicate (indent * depth).toInt.toNat 32

/-- The comma before every item but the first one. -/
def separator (first : Bool) : List UInt8 := if first then [] else [comma]

/-- The colon of a key, with a blank when there is an indentation. -/
def keySeparator (indent : Int32) : List UInt8 := if indent < 0 then [colon] else [colon, 32]

section Dump

variable (B : StringBuilder) (indent : Int32)

mutual

/-- `_dump_dom_to_builder`. -/
def dumpDomToBuilder (depth : Int32) : Element → List UInt8
  | .null => nullText
  | .bool b => boolText b
  | .int64 z => decimalInt z.toInt
  | .uint64 n => decimal n.toNat
  | .double x => B.appendDouble x
  | .string s => B.escape s
  | .array l =>
      openArray :: (dumpDomItems depth true l ++ (writeIndent indent depth ++ [closeArray]))
  | .object l =>
      openObject :: (dumpDomMembers depth true l ++ (writeIndent indent depth ++ [closeObject]))

def dumpDomItems (depth : Int32) (first : Bool) : List Element → List UInt8
  | [] => []
  | e :: l =>
      separator first ++ (writeIndent indent (depth + 1) ++
        (dumpDomToBuilder (depth + 1) e ++ dumpDomItems depth false l))

def dumpDomMembers (depth : Int32) (first : Bool) : List (List UInt8 × Element) → List UInt8
  | [] => []
  | (k, e) :: l =>
      separator first ++ (writeIndent indent (depth + 1) ++
        (B.escape k ++ (keySeparator indent ++
          (dumpDomToBuilder (depth + 1) e ++ dumpDomMembers depth false l))))

end

mutual

/-- `_dump_to_builder`. -/
def dumpToBuilder (depth : Int32) : Json → List UInt8
  | .null => nullText
  | .bool b => boolText b
  | .int64 z => decimalInt z.toInt
  | .uint64 n => decimal n.toNat
  | .double x => B.appendDouble x
  | .string s => B.escape s
  | .array l =>
      openArray :: (dumpItems depth true l ++ (writeIndent indent depth ++ [closeArray]))
  | .object l =>
      openObject :: (dumpMembers depth true l ++ (writeIndent indent depth ++ [closeObject]))
  | .dom e => dumpDomToBuilder B indent depth e
  | .discarded => discardedText

def dumpItems (depth : Int32) (first : Bool) : List Json → List UInt8
  | [] => []
  | v :: l =>
      separator first ++ (writeIndent indent (depth + 1) ++
        (dumpToBuilder (depth + 1) v ++ dumpItems depth false l))

def dumpMembers (depth : Int32) (first : Bool) : List (List UInt8 × Json) → List UInt8
  | [] => []
  | (k, v) :: l =>
      separator first ++ (writeIndent indent (depth + 1) ++
        (B.escape k ++ (keySeparator indent ++
          (dumpToBuilder (depth + 1) v ++ dumpMembers depth false l))))

end

end Dump

/-- `parse`, which throws on a text that is not accepted. -/
def parse (S : Simdjson) (s : List UInt8) : Option Json := (S.parse s).map .dom

end Json

end Sihd

/-!
## What a dump says

The value of a `Json` forgets how it is held. The two dumpers write the text
that `print` writes of the value, which is a text of it when strings are escaped
as simdjson does.
-/

namespace Sihd.Json

open JsonText

/-! ### The value of a tree -/

mutual

def elementValue? : Element → Option JsonValue
  | .null => some .null
  | .bool b => some (.bool b)
  | .int64 z => some (.int z.toInt)
  | .uint64 n => some (.int n.toNat)
  | .double _ => none
  | .string s => some (.string s)
  | .array l => (elementValues? l).map .array
  | .object l => (elementMembers? l).map .object

def elementValues? : List Element → Option (List JsonValue)
  | [] => some []
  | e :: l => Option.map₂ List.cons (elementValue? e) (elementValues? l)

def elementMembers? : List (List UInt8 × Element) → Option (List (List UInt8 × JsonValue))
  | [] => some []
  | (k, e) :: l =>
      Option.map₂ (fun v l => (k, v) :: l) (elementValue? e) (elementMembers? l)

end

mutual

/-- The value of a tree without doubles and discarded values. -/
def value? : Json → Option JsonValue
  | .null => some .null
  | .bool b => some (.bool b)
  | .int64 z => some (.int z.toInt)
  | .uint64 n => some (.int n.toNat)
  | .double _ => none
  | .string s => some (.string s)
  | .array l => (values? l).map .array
  | .object l => (memberValues? l).map .object
  | .dom e => elementValue? e
  | .discarded => none

def values? : List Json → Option (List JsonValue)
  | [] => some []
  | j :: l => Option.map₂ List.cons (value? j) (values? l)

def memberValues? : List (List UInt8 × Json) → Option (List (List UInt8 × JsonValue))
  | [] => some []
  | (k, j) :: l => Option.map₂ (fun v l => (k, v) :: l) (value? j) (memberValues? l)

end

/-! ### The text of a value -/

section Print

variable (B : StringBuilder) (indent : Int32)

mutual

def print (depth : Int32) : JsonValue → List UInt8
  | .null => nullText
  | .bool b => boolText b
  | .int z => decimalInt z
  | .string s => B.escape s
  | .array l =>
      openArray :: (printItems depth true l ++ (writeIndent indent depth ++ [closeArray]))
  | .object l =>
      openObject :: (printMembers depth true l ++ (writeIndent indent depth ++ [closeObject]))

def printItems (depth : Int32) (first : Bool) : List JsonValue → List UInt8
  | [] => []
  | v :: l =>
      separator first ++ (writeIndent indent (depth + 1) ++
        (print (depth + 1) v ++ printItems depth false l))

def printMembers (depth : Int32) (first : Bool) : List (List UInt8 × JsonValue) → List UInt8
  | [] => []
  | (k, v) :: l =>
      separator first ++ (writeIndent indent (depth + 1) ++
        (B.escape k ++ (keySeparator indent ++
          (print (depth + 1) v ++ printMembers depth false l))))

end

variable {B indent}

theorem decimalInt_natCast (n : Nat) : decimalInt n = decimal n := by
  rw [decimalInt, if_neg (by omega), Int.natAbs_natCast]

mutual

theorem dumpDomToBuilder_eq {e : Element} {v : JsonValue} (h : elementValue? e = some v)
    (depth : Int32) : dumpDomToBuilder B indent depth e = print B indent depth v := by
  cases e with
  | null | bool | int64 | string =>
    cases h
    rfl
  | uint64 n =>
    cases h
    exact (decimalInt_natCast n.toNat).symm
  | double x => cases h
  | array l =>
    obtain ⟨vs, hvs, rfl⟩ := Option.map_eq_some_iff.mp h
    rw [dumpDomToBuilder, print, dumpDomItems_eq hvs]
  | object l =>
    obtain ⟨vs, hvs, rfl⟩ := Option.map_eq_some_iff.mp h
    rw [dumpDomToBuilder, print, dumpDomMembers_eq hvs]

theorem dumpDomItems_eq {l : List Element} {vs : List JsonValue}
    (h : elementValues? l = some vs) (depth : Int32) (first : Bool) :
    dumpDomItems B indent depth first l = printItems B indent depth first vs := by
  cases l with
  | nil =>
    cases h
    rfl
  | cons e l =>
    obtain ⟨v, vs, hv, hvs, rfl⟩ := Option.map₂_eq_some_iff.mp h
    rw [dumpDomItems, printItems, dumpDomToBuilder_eq hv, dumpDomItems_eq hvs]

theorem dumpDomMembers_eq {l : List (List UInt8 × Element)}
    {vs : List (List UInt8 × JsonValue)} (h : elementMembers? l = some vs) (depth : Int32)
    (first : Bool) :
    dumpDomMembers B indent depth first l = printMembers B indent depth first vs := by
  match l with
  | [] =>
    cases h
    rfl
  | (k, e) :: l =>
    obtain ⟨v, vs, hv, hvs, rfl⟩ := Option.map₂_eq_some_iff.mp h
    rw [dumpDomMembers, printMembers, dumpDomToBuilder_eq hv, dumpDomMembers_eq hvs]

end

mutual

/-- Both dumpers write the text of the value. -/
theorem dumpToBuilder_eq {j : Json} {v : JsonValue} (h : value? j = some v) (depth : Int32) :
    dumpToBuilder B indent depth j = print B indent depth v := by
  cases j with
  | null | bool | int64 | string =>
    cases h
    rfl
  | uint64 n =>
    cases h
    exact (decimalInt_natCast n.toNat).symm
  | double x => cases h
  | array l =>
    obtain ⟨vs, hvs, rfl⟩ := Option.map_eq_some_iff.mp h
    rw [dumpToBuilder, print, dumpItems_eq hvs]
  | object l =>
    obtain ⟨vs, hvs, rfl⟩ := Option.map_eq_some_iff.mp h
    rw [dumpToBuilder, print, dumpMembers_eq hvs]
  | dom e => exact dumpDomToBuilder_eq h depth
  | discarded => cases h

theorem dumpItems_eq {l : List Json} {vs : List JsonValue} (h : values? l = some vs)
    (depth : Int32) (first : Bool) :
    dumpItems B indent depth first l = printItems B indent depth first vs := by
  cases l with
  | nil =>
    cases h
    rfl
  | cons j l =>
    obtain ⟨v, vs, hv, hvs, rfl⟩ := Option.map₂_eq_some_iff.mp h
    rw [dumpItems, printItems, dumpToBuilder_eq hv, dumpItems_eq hvs]

theorem dumpMembers_eq {l : List (List UInt8 × Json)} {vs : List (List UInt8 × JsonValue)}
    (h : memberValues? l = some vs) (depth : Int32) (first : Bool) :
    dumpMembers B indent depth first l = printMembers B indent depth first vs := by
  match l with
  | [] =>
    cases h
    rfl
  | (k, j) :: l =>
    obtain ⟨v, vs, hv, hvs, rfl⟩ := Option.map₂_eq_some_iff.mp h
    rw [dumpMembers, printMembers, dumpToBuilder_eq hv, dumpMembers_eq hvs]

end

/-! ### It is a text of the value -/

theorem blank_writeIndent (indent depth : Int32) : Blank (writeIndent indent depth) := by
  intro c hc
  rw [writeIndent] at hc
  split at hc
  · cases hc
  · rcases List.mem_cons.mp hc with rfl | hc
    · rfl
    · rw [(List.mem_replicate.mp hc).2]
      rfl

theorem keySeparator_eq (indent : Int32) :
    ∃ w, Blank w ∧ keySeparator indent = colon :: w := by
  rw [keySeparator]
  split
  · exact ⟨[], fun c hc => (by cases hc), rfl⟩
  · refine ⟨[32], fun c hc => ?_, rfl⟩
    rw [List.mem_singleton.mp hc]
    rfl

theorem blank_nil : Blank [] := fun c hc => by cases hc

/-- Strings are escaped into texts of them. -/
def Escapes (B : StringBuilder) : Prop := ∀ s, ValidUtf8 s → StringText s (B.escape s)

mutual

theorem text_print (hB : Escapes B) {v : JsonValue} (hv : WellFormed v) (depth : Int32) :
    Text v (print B indent depth v) := by
  match v with
  | .null => exact .null
  | .bool b => exact .bool b
  | .int z => exact .int z
  | .string s => exact .string (hB s hv)
  | .array [] => exact .emptyArray (blank_writeIndent indent depth)
  | .array (v :: l) =>
    exact .array (items_print hB hv (by simp) (blank_writeIndent indent depth) depth)
  | .object [] => exact .emptyObject (blank_writeIndent indent depth)
  | .object (m :: l) =>
    exact .object hv.1 (members_print hB hv.2 (by simp) (blank_writeIndent indent depth) depth)

theorem items_print (hB : Escapes B) {l : List JsonValue} (hl : WellFormedItems l)
    (hne : l ≠ []) {b : List UInt8} (hb : Blank b) (depth : Int32) :
    Items l (printItems B indent depth true l ++ (b ++ [closeArray])) := by
  match l with
  | [] => exact absurd rfl hne
  | [v] =>
    simp only [printItems, separator, if_true, List.nil_append, List.append_nil,
      List.append_assoc]
    exact .last (blank_writeIndent indent _) (text_print hB hl.1 _) hb
  | v :: v' :: l =>
    have hrest := items_print hB hl.2 (by simp) hb depth
    rw [printItems, separator] at hrest ⊢
    rw [if_pos rfl, List.nil_append] at hrest ⊢
    rw [printItems, separator, if_neg (by simp), List.append_assoc, List.append_assoc,
      List.append_assoc]
    exact .cons (blank_writeIndent indent _) (text_print hB hl.1 _) blank_nil hrest

theorem members_print (hB : Escapes B) {l : List (List UInt8 × JsonValue)}
    (hl : WellFormedMembers l) (hne : l ≠ []) {b : List UInt8} (hb : Blank b) (depth : Int32) :
    Members l (printMembers B indent depth true l ++ (b ++ [closeObject])) := by
  obtain ⟨w, hw, hkey⟩ := keySeparator_eq indent
  match l with
  | [] => exact absurd rfl hne
  | [(k, v)] =>
    simp only [printMembers, separator, if_true, List.nil_append, List.append_nil,
      List.append_assoc, hkey, List.cons_append]
    exact .last (blank_writeIndent indent _) (hB k hl.1) blank_nil hw (text_print hB hl.2.1 _) hb
  | (k, v) :: (k', v') :: l =>
    have hrest := members_print hB hl.2.2 (by simp) hb depth
    rw [printMembers, separator] at hrest ⊢
    rw [if_pos rfl, List.nil_append] at hrest ⊢
    rw [printMembers, separator, if_neg (by simp), hkey]
    rw [hkey] at hrest
    simp only [List.append_assoc, List.cons_append, List.nil_append] at hrest ⊢
    exact .cons (blank_writeIndent indent _) (hB k hl.1) blank_nil hw (text_print hB hl.2.1 _)
      blank_nil hrest

end

end Print

end Sihd.Json
