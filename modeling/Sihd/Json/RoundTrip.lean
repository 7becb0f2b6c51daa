import Sihd.Json.Definitions
import Sihd.Lib.JsonReader

/-!
# Parsing a dump

A tree that is dumped and parsed is a document of the same value, and it is
equal to the tree as long as every number of the tree has the type that its text
is parsed to.
-/

namespace Sihd.Json

open JsonText

mutual

/-- The element that a text of a value is parsed to. An integer is an `INT64`
when it fits one. -/
def ofValue : JsonValue → Element
  | .null => .null
  | .bool b => .bool b
  | .int z => if z < 2 ^ 63 then .int64 (Int64.ofInt z) else .uint64 (UInt64.ofNat z.toNat)
  | .string s => .string s
  | .array l => .array (ofValues l)
  | .object l => .object (ofMembers l)

def ofValues : List JsonValue → List Element
  | [] => []
  | v :: l => ofValue v :: ofValues l

def ofMembers : List (List UInt8 × JsonValue) → List (List UInt8 × Element)
  | [] => []
  | (k, v) :: l => (k, ofValue v) :: ofMembers l

end

mutual

theorem fits_of_elementValue? {e : Element} {v : JsonValue} (h : elementValue? e = some v) :
    Fits v := by
  cases e with
  | null | bool | string =>
    cases h
    exact trivial
  | int64 z =>
    cases h
    exact ⟨z.le_toInt, z.toInt_lt.trans (by decide)⟩
  | uint64 n =>
    cases h
    have hn := n.toNat_lt
    exact ⟨by omega, by omega⟩
  | double x => cases h
  | array l =>
    obtain ⟨vs, hvs, rfl⟩ := Option.map_eq_some_iff.mp h
    exact fitsItems_of_elementValues? hvs
  | object l =>
    obtain ⟨vs, hvs, rfl⟩ := Option.map_eq_some_iff.mp h
    exact fitsMembers_of_elementMembers? hvs

theorem fitsItems_of_elementValues? {l : List Element} {vs : List JsonValue}
    (h : elementValues? l = some vs) : FitsItems vs := by
  cases l with
  | nil =>
    cases h
    exact trivial
  | cons e l =>
    obtain ⟨v, vs, hv, hvs, rfl⟩ := Option.map₂_eq_some_iff.mp h
    exact ⟨fits_of_elementValue? hv, fitsItems_of_elementValues? hvs⟩

theorem fitsMembers_of_elementMembers? {l : List (List UInt8 × Element)}
    {vs : List (List UInt8 × JsonValue)} (h : elementMembers? l = some vs) :
    FitsMembers vs := by
  match l with
  | [] =>
    cases h
    exact trivial
  | (k, e) :: l =>
    obtain ⟨v, vs, hv, hvs, rfl⟩ := Option.map₂_eq_some_iff.mp h
    exact ⟨fits_of_elementValue? hv, fitsMembers_of_elementMembers? hvs⟩

end

mutual

theorem fits_of_value? {j : Json} {v : JsonValue} (h : value? j = some v) : Fits v := by
  cases j with
  | null | bool | string =>
    cases h
    exact trivial
  | int64 z =>
    cases h
    exact ⟨z.le_toInt, z.toInt_lt.trans (by decide)⟩
  | uint64 n =>
    cases h
    have hn := n.toNat_lt
    exact ⟨by omega, by omega⟩
  | double x => cases h
  | array l =>
    obtain ⟨vs, hvs, rfl⟩ := Option.map_eq_some_iff.mp h
    exact fitsItems_of_values? hvs
  | object l =>
    obtain ⟨vs, hvs, rfl⟩ := Option.map_eq_some_iff.mp h
    exact fitsMembers_of_memberValues? hvs
  | dom e => exact fits_of_elementValue? h
  | discarded => cases h

theorem fitsItems_of_values? {l : List Json} {vs : List JsonValue}
    (h : values? l = some vs) : FitsItems vs := by
  cases l with
  | nil =>
    cases h
    exact trivial
  | cons j l =>
    obtain ⟨v, vs, hv, hvs, rfl⟩ := Option.map₂_eq_some_iff.mp h
    exact ⟨fits_of_value? hv, fitsItems_of_values? hvs⟩

theorem fitsMembers_of_memberValues? {l : List (List UInt8 × Json)}
    {vs : List (List UInt8 × JsonValue)} (h : memberValues? l = some vs) :
    FitsMembers vs := by
  match l with
  | [] =>
    cases h
    exact trivial
  | (k, j) :: l =>
    obtain ⟨v, vs, hv, hvs, rfl⟩ := Option.map₂_eq_some_iff.mp h
    exact ⟨fits_of_value? hv, fitsMembers_of_memberValues? hvs⟩

end

variable {S : Simdjson}

mutual

/-- No `UINT64` of an element fits an `INT64`. -/
def ElementKept : Element → Prop
  | .uint64 n => 2 ^ 63 ≤ n.toNat
  | .array l => ElementsKept l
  | .object l => ElementMembersKept l
  | _ => True

def ElementsKept : List Element → Prop
  | [] => True
  | e :: l => ElementKept e ∧ ElementsKept l

def ElementMembersKept : List (List UInt8 × Element) → Prop
  | [] => True
  | (_, e) :: l => ElementKept e ∧ ElementMembersKept l

end

mutual

/-- No `uint64_t` of a tree fits an `int64_t`, and simdjson keeps the size of
every array and of every object. -/
def Kept : Json → Prop
  | .uint64 n => 2 ^ 63 ≤ n.toNat
  | .array l => l.length ≤ 0xFFFFFF ∧ ItemsKept l
  | .object l => l.length ≤ 0xFFFFFF ∧ MembersKept l
  | .dom e => ElementKept e
  | _ => True

def ItemsKept : List Json → Prop
  | [] => True
  | j :: l => Kept j ∧ ItemsKept l

def MembersKept : List (List UInt8 × Json) → Prop
  | [] => True
  | (_, j) :: l => Kept j ∧ MembersKept l

end

theorem all_attach_zip {α β : Type*} (l : List α) (l' : List β) (f : α → β → Bool) :
    ((l.attach.zip l').all fun p => f p.1.1 p.2) = (l.zip l').all fun p => f p.1 p.2 := by
  have hmap : l.zip l' = (l.attach.zip l').map fun p => (p.1.1, p.2) := by
    conv_lhs => rw [← List.attach_map_subtype_val l]
    rw [List.zip_map_left]
    rfl
  rw [hmap, List.all_map]
  rfl

theorem beq_of_type_ne {a b : Json} (h : a.type ≠ b.type) : beq a b = false := by
  rw [beq, beq_false_of_ne h, Bool.false_and]

theorem beq_array {a b : Json} (ha : a.type = .array) (hb : b.type = .array) :
    beq a b = true ↔
      a.size = b.size ∧ ((a.items.zip b.items).all fun p => beq p.1 p.2) = true := by
  rw [beq, ha, hb]
  simp only [beq_self_eq_true, Bool.true_and, Bool.and_eq_true, beq_iff_eq]
  rw [all_attach_zip a.items b.items beq]

theorem beq_object {a b : Json} (ha : a.type = .object) (hb : b.type = .object) :
    beq a b = true ↔ a.size = b.size ∧
      ((a.members.zip b.members).all fun p => p.1.1 == p.2.1 && beq p.1.2 p.2.2) = true := by
  rw [beq, ha, hb]
  simp only [beq_self_eq_true, Bool.true_and, Bool.and_eq_true, beq_iff_eq]
  rw [all_attach_zip a.members b.members fun x y => x.1 == y.1 && beq x.2 y.2]

/-! A number is read back with its type, unless it is unsigned and small. -/

theorem beq_int64 {j : Json} {z : Int64} (htype : j.type = .int) (hget : j.getInt64 = some z) :
    beq (.dom (ofValue (.int z.toInt))) j = true := by
  have hlt : z.toInt < 2 ^ 63 := z.toInt_lt
  have hvalue : ofValue (.int z.toInt) = .int64 z := by
    rw [ofValue, if_pos hlt, Int64.ofInt_toInt]
  rw [hvalue, beq, hget, htype]
  exact beq_self_eq_true (some z)

theorem beq_uint64 {j : Json} {n : UInt64} (htype : j.type = .uint)
    (hget : j.getUInt64 = some n) :
    beq (.dom (ofValue (.int n.toNat))) j = true ↔ 2 ^ 63 ≤ n.toNat := by
  by_cases hsmall : n.toNat < 2 ^ 63
  · have hvalue : ofValue (.int n.toNat) = .int64 (Int64.ofInt n.toNat) := by
      rw [ofValue, if_pos (by omega)]
    have hne : (Json.dom (.int64 (Int64.ofInt n.toNat))).type ≠ j.type := by
      rw [htype]
      exact fun heq => by cases heq
    rw [hvalue, beq_of_type_ne hne]
    exact iff_of_false Bool.false_ne_true (by omega)
  · have hvalue : ofValue (.int n.toNat) = .uint64 n := by
      rw [ofValue, if_neg (by omega), Int.toNat_natCast, UInt64.ofNat_toNat]
    rw [hvalue, beq, hget, htype]
    exact iff_of_true (beq_self_eq_true (some n)) (not_lt.mp hsmall)

theorem domSize_eq_iff (n : Nat) : domSize n = n ↔ n ≤ 0xFFFFFF := by
  rw [domSize]
  omega

theorem length_ofValues (l : List JsonValue) : (ofValues l).length = l.length := by
  induction l with
  | nil => rfl
  | cons v l ih => rw [ofValues, List.length_cons, List.length_cons, ih]

theorem length_ofMembers (l : List (List UInt8 × JsonValue)) :
    (ofMembers l).length = l.length := by
  induction l with
  | nil => rfl
  | cons m l ih => rw [ofMembers, List.length_cons, List.length_cons, ih]

theorem length_elementValues? {l : List Element} {vs : List JsonValue}
    (h : elementValues? l = some vs) : vs.length = l.length := by
  induction l generalizing vs with
  | nil =>
    cases h
    rfl
  | cons e l ih =>
    obtain ⟨v, vs, -, hvs, rfl⟩ := Option.map₂_eq_some_iff.mp h
    rw [List.length_cons, List.length_cons, ih hvs]

theorem length_elementMembers? {l : List (List UInt8 × Element)}
    {vs : List (List UInt8 × JsonValue)} (h : elementMembers? l = some vs) :
    vs.length = l.length := by
  induction l generalizing vs with
  | nil =>
    cases h
    rfl
  | cons m l ih =>
    obtain ⟨v, vs, -, hvs, rfl⟩ := Option.map₂_eq_some_iff.mp h
    rw [List.length_cons, List.length_cons, ih hvs]

theorem length_values? {l : List Json} {vs : List JsonValue} (h : values? l = some vs) :
    vs.length = l.length := by
  induction l generalizing vs with
  | nil =>
    cases h
    rfl
  | cons j l ih =>
    obtain ⟨v, vs, -, hvs, rfl⟩ := Option.map₂_eq_some_iff.mp h
    rw [List.length_cons, List.length_cons, ih hvs]

theorem length_memberValues? {l : List (List UInt8 × Json)}
    {vs : List (List UInt8 × JsonValue)} (h : memberValues? l = some vs) :
    vs.length = l.length := by
  induction l generalizing vs with
  | nil =>
    cases h
    rfl
  | cons m l ih =>
    obtain ⟨v, vs, -, hvs, rfl⟩ := Option.map₂_eq_some_iff.mp h
    rw [List.length_cons, List.length_cons, ih hvs]

mutual

theorem beq_element_iff {e : Element} {v : JsonValue} (h : elementValue? e = some v) :
    beq (.dom (ofValue v)) (.dom e) = true ↔ ElementKept e := by
  cases e with
  | null | bool | string =>
    cases h
    rw [beq]
    simp [ofValue, ElementKept, type, domType, getBool, getString]
  | int64 z =>
    cases h
    exact iff_of_true (beq_int64 rfl rfl) trivial
  | uint64 n =>
    cases h
    exact beq_uint64 rfl rfl
  | double x => cases h
  | array l =>
    obtain ⟨vs, hvs, rfl⟩ := Option.map_eq_some_iff.mp h
    rw [ofValue, beq_array rfl rfl]
    have hsize : domSize (ofValues vs).length = domSize l.length := by
      rw [length_ofValues, length_elementValues? hvs]
    exact (and_iff_right hsize).trans (beq_elements_iff hvs)
  | object l =>
    obtain ⟨vs, hvs, rfl⟩ := Option.map_eq_some_iff.mp h
    rw [ofValue, beq_object rfl rfl]
    have hsize : domSize (ofMembers vs).length = domSize l.length := by
      rw [length_ofMembers, length_elementMembers? hvs]
    exact (and_iff_right hsize).trans (beq_elementMembers_iff hvs)

theorem beq_elements_iff {l : List Element} {vs : List JsonValue}
    (h : elementValues? l = some vs) :
    ((((ofValues vs).map Json.dom).zip (l.map Json.dom)).all fun p => beq p.1 p.2) = true ↔
      ElementsKept l := by
  cases l with
  | nil =>
    cases h
    exact iff_of_true rfl trivial
  | cons e l =>
    obtain ⟨v, vs, hv, hvs, rfl⟩ := Option.map₂_eq_some_iff.mp h
    rw [ofValues, List.map_cons, List.map_cons, List.zip_cons_cons, List.all_cons,
      Bool.and_eq_true, beq_element_iff hv, beq_elements_iff hvs]
    rfl

theorem beq_elementMembers_iff {l : List (List UInt8 × Element)}
    {vs : List (List UInt8 × JsonValue)} (h : elementMembers? l = some vs) :
    ((((ofMembers vs).map fun m => (m.1, Json.dom m.2)).zip
      (l.map fun m => (m.1, Json.dom m.2))).all fun p =>
        p.1.1 == p.2.1 && beq p.1.2 p.2.2) = true ↔ ElementMembersKept l := by
  match l with
  | [] =>
    cases h
    exact iff_of_true rfl trivial
  | (k, e) :: l =>
    obtain ⟨v, vs, hv, hvs, rfl⟩ := Option.map₂_eq_some_iff.mp h
    rw [ofMembers, List.map_cons, List.map_cons, List.zip_cons_cons, List.all_cons,
      Bool.and_eq_true, beq_elementMembers_iff hvs, beq_self_eq_true, Bool.true_and,
      beq_element_iff hv]
    rfl

end

mutual

/-- The document of a value is equal to a tree of that value when the tree is
kept. -/
theorem beq_iff {j : Json} {v : JsonValue} (h : value? j = some v) :
    beq (.dom (ofValue v)) j = true ↔ Kept j := by
  cases j with
  | null | bool | string =>
    cases h
    rw [beq]
    simp [ofValue, Kept, type, domType, getBool, getString]
  | int64 z =>
    cases h
    exact iff_of_true (beq_int64 rfl rfl) trivial
  | uint64 n =>
    cases h
    exact beq_uint64 rfl rfl
  | double x => cases h
  | array l =>
    obtain ⟨vs, hvs, rfl⟩ := Option.map_eq_some_iff.mp h
    rw [ofValue, beq_array rfl rfl]
    have hsize : domSize (ofValues vs).length = l.length ↔ l.length ≤ 0xFFFFFF := by
      rw [length_ofValues, length_values? hvs, domSize_eq_iff]
    exact and_congr hsize (beq_items_iff hvs)
  | object l =>
    obtain ⟨vs, hvs, rfl⟩ := Option.map_eq_some_iff.mp h
    rw [ofValue, beq_object rfl rfl]
    have hsize : domSize (ofMembers vs).length = l.length ↔ l.length ≤ 0xFFFFFF := by
      rw [length_ofMembers, length_memberValues? hvs, domSize_eq_iff]
    exact and_congr hsize (beq_members_iff hvs)
  | dom e => exact beq_element_iff h
  | discarded => cases h

theorem beq_items_iff {l : List Json} {vs : List JsonValue} (h : values? l = some vs) :
    ((((ofValues vs).map Json.dom).zip l).all fun p => beq p.1 p.2) = true ↔ ItemsKept l := by
  cases l with
  | nil =>
    cases h
    exact iff_of_true rfl trivial
  | cons j l =>
    obtain ⟨v, vs, hv, hvs, rfl⟩ := Option.map₂_eq_some_iff.mp h
    rw [ofValues, List.map_cons, List.zip_cons_cons, List.all_cons, Bool.and_eq_true,
      beq_iff hv, beq_items_iff hvs]
    rfl

theorem beq_members_iff {l : List (List UInt8 × Json)} {vs : List (List UInt8 × JsonValue)}
    (h : memberValues? l = some vs) :
    ((((ofMembers vs).map fun m => (m.1, Json.dom m.2)).zip l).all fun p =>
        p.1.1 == p.2.1 && beq p.1.2 p.2.2) = true ↔ MembersKept l := by
  match l with
  | [] =>
    cases h
    exact iff_of_true rfl trivial
  | (k, j) :: l =>
    obtain ⟨v, vs, hv, hvs, rfl⟩ := Option.map₂_eq_some_iff.mp h
    rw [ofMembers, List.map_cons, List.zip_cons_cons, List.all_cons, Bool.and_eq_true,
      beq_members_iff hvs, beq_self_eq_true, Bool.true_and, beq_iff hv]
    rfl

end

end Sihd.Json
