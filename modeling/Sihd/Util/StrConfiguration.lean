import Sihd.Lib.UnorderedMap
import Sihd.Util.Splitter.Plain

/-!
# Configurations

A `StrConfiguration` is read from items `key=value` with semicolons between
them. Its map keeps the first value of a key and has no order: what it prints is
read again as the same map, whichever order the items were printed in.
-/

namespace Sihd.Util

/-- The map `_configuration`. -/
abbrev StrConfiguration := UnorderedMap (List UInt8) (List UInt8)

namespace StrConfiguration

def semicolon : UInt8 := 59

def equal : UInt8 := 61

def clear (_ : StrConfiguration) : StrConfiguration := UnorderedMap.empty

/-- One turn of the loop of `parse_configuration`. -/
def parseItem (configuration : StrConfiguration) (item : List UInt8) : StrConfiguration :=
  let (key, value) := Str.splitPair item equal
  if key.isEmpty then configuration else configuration.emplace key value

def parseConfiguration (configuration : StrConfiguration) (conf : List UInt8) :
    StrConfiguration :=
  let configuration := configuration.clear
  if conf.isEmpty then configuration
  else (Str.split conf [semicolon]).foldl parseItem configuration

/-- One turn of the loop of `str`: what is printed, and whether the next entry is
the first one. -/
def printEntry (printed : List UInt8 × Bool) (entry : List UInt8 × List UInt8) :
    List UInt8 × Bool :=
  (printed.1 ++ ((if printed.2 then [] else [semicolon]) ++ entry.1 ++ [equal] ++ entry.2), false)

def str (configuration : StrConfiguration) : List UInt8 :=
  (configuration.entries.foldl printEntry ([], true)).1

/-- The first item with a key, among what is between the semicolons of a text. -/
def IsFirstItem (conf key value : List UInt8) : Prop :=
  ∃ before after, pieces [semicolon] conf = before ++ (key ++ equal :: value) :: after ∧
    key ≠ [] ∧ equal ∉ key ∧ ∀ item ∈ before, ∀ other, item ≠ key ++ equal :: other

/-! ## Reading -/

/-- The value that an item has for a key. -/
def valueOf (key item : List UInt8) : Option (List UInt8) :=
  if key ≠ [] ∧ (Str.splitPair item equal).1 = key then some (Str.splitPair item equal).2
  else none

variable {configuration : StrConfiguration} {conf key value item : List UInt8}

theorem valueOf_eq_some_iff :
    valueOf key item = some value ↔
      (key ≠ [] ∧ equal ∉ key) ∧ item = key ++ equal :: value := by
  constructor
  · intro h
    rw [valueOf, Option.ite_none_right_eq_some] at h
    obtain ⟨⟨hne, hkey⟩, hvalue⟩ := h
    rw [Option.some.injEq] at hvalue
    unfold Str.splitPair at hkey hvalue
    cases hcut : cut equal item with
    | none =>
      rw [hcut] at hkey
      exact absurd hkey.symm hne
    | some parts =>
      obtain ⟨first, second⟩ := parts
      obtain ⟨hequal, hitem⟩ := cut_eq_some_iff.mp hcut
      simp only [hcut] at hkey hvalue
      split at hkey
      · exact absurd hkey.symm hne
      · rename_i hfirst
        rw [if_neg hfirst] at hvalue
        subst hkey hvalue
        exact ⟨⟨hne, hequal⟩, hitem⟩
  · rintro ⟨⟨hne, hequal⟩, rfl⟩
    rw [valueOf, Str.splitPair_append_cons hequal hne]
    simp [hne]

theorem find_parseItem (configuration : StrConfiguration) (item key : List UInt8) :
    (parseItem configuration item).find key = (configuration.find key).or (valueOf key item) := by
  unfold parseItem valueOf
  generalize Str.splitPair item equal = pair
  obtain ⟨first, second⟩ := pair
  dsimp only
  cases first with
  | nil =>
    by_cases hkey : key = []
    · simp [hkey]
    · simp [Ne.symm hkey]
  | cons c first =>
    rw [if_neg (by simp), UnorderedMap.find_emplace]
    by_cases hkey : key = c :: first
    · subst hkey
      cases configuration.find (c :: first) with
      | none => simp
      | some v => simp
    · simp [hkey, Ne.symm hkey]

theorem find_foldl_parseItem (configuration : StrConfiguration) (items : List (List UInt8))
    (key : List UInt8) :
    (items.foldl parseItem configuration).find key =
      (configuration.find key).or (items.findSome? (valueOf key)) := by
  induction items generalizing configuration with
  | nil => simp
  | cons item items ih =>
    rw [List.foldl_cons, ih, find_parseItem, List.findSome?_cons, Option.or_assoc]
    cases valueOf key item with
    | none => simp
    | some v => simp

theorem parseItem_nil (configuration : StrConfiguration) : parseItem configuration [] = configuration :=
  rfl

theorem parseConfiguration_eq (configuration : StrConfiguration) (conf : List UInt8) :
    configuration.parseConfiguration conf =
      (pieces [semicolon] conf).foldl parseItem UnorderedMap.empty := by
  unfold parseConfiguration
  cases conf with
  | nil => simp [parseItem_nil, clear]
  | cons c conf =>
    rw [if_neg (by simp), Str.split_eq (List.cons_ne_nil _ _), List.foldl_filter]
    refine List.foldl_ext _ _ _ fun configuration item _ => ?_
    cases item with
    | nil => rfl
    | cons c item => simp

theorem find_parseConfiguration_iff :
    (configuration.parseConfiguration conf).find key = some value ↔
      IsFirstItem conf key value := by
  have hempty : (UnorderedMap.empty : StrConfiguration).find key = none := rfl
  rw [parseConfiguration_eq, find_foldl_parseItem, hempty, Option.none_or,
    List.findSome?_eq_some_iff]
  constructor
  · rintro ⟨before, item, after, hpieces, hvalue, hbefore⟩
    obtain ⟨⟨hne, hequal⟩, rfl⟩ := valueOf_eq_some_iff.mp hvalue
    refine ⟨before, after, hpieces, hne, hequal, ?_⟩
    intro item hitem other hother
    have hsome := valueOf_eq_some_iff.mpr ⟨⟨hne, hequal⟩, hother⟩
    simp [hbefore item hitem] at hsome
  · rintro ⟨before, after, hpieces, hne, hequal, hbefore⟩
    refine ⟨before, _, after, hpieces, valueOf_eq_some_iff.mpr ⟨⟨hne, hequal⟩, rfl⟩, ?_⟩
    intro item hitem
    cases hvalue : valueOf key item with
    | none => rfl
    | some other =>
      exact absurd (valueOf_eq_some_iff.mp hvalue).2 (hbefore item hitem other)

/-! ## Printing -/

def itemOf (entry : List UInt8 × List UInt8) : List UInt8 := entry.1 ++ equal :: entry.2

theorem intercalate_append_cons (u w : List UInt8) (l : List (List UInt8)) :
    [semicolon].intercalate ((u ++ w) :: l) = u ++ [semicolon].intercalate (w :: l) := by
  cases l with
  | nil => simp
  | cons w' l => simp [List.intercalate_cons_cons]

theorem foldl_printEntry (w : List UInt8) (entries : List (List UInt8 × List UInt8)) :
    (entries.foldl printEntry (w, false)).1 =
      [semicolon].intercalate (w :: entries.map itemOf) := by
  induction entries generalizing w with
  | nil => simp
  | cons entry entries ih =>
    have hprint : printEntry (w, false) entry =
        (w ++ [semicolon] ++ itemOf entry, false) := by simp [printEntry, itemOf]
    rw [List.foldl_cons, hprint, ih, intercalate_append_cons, List.map_cons,
      List.intercalate_cons_cons]

theorem str_eq (configuration : StrConfiguration) :
    configuration.str = [semicolon].intercalate (configuration.entries.map itemOf) := by
  unfold str
  cases configuration.entries with
  | nil => simp
  | cons entry entries =>
    have hprint : printEntry ([], true) entry = (itemOf entry, false) := by
      simp [printEntry, itemOf]
    rw [List.foldl_cons, hprint, foldl_printEntry, List.map_cons]

/-- Entries that can be read again: a key that is not empty, and no separator where
it would be taken for one. -/
def Printable (configuration : StrConfiguration) : Prop :=
  ∀ entry ∈ configuration.entries, entry.1 ≠ [] ∧ equal ∉ entry.1 ∧ semicolon ∉ itemOf entry

theorem printable_parseConfiguration (configuration : StrConfiguration) (conf : List UInt8) :
    (configuration.parseConfiguration conf).Printable := by
  intro entry hentry
  obtain ⟨before, after, hpieces, hne, hequal, -⟩ :=
    find_parseConfiguration_iff.mp (UnorderedMap.find_eq_some_iff.mpr hentry)
  refine ⟨hne, hequal, not_mem_of_mem_pieces (s := conf) ?_⟩
  rw [hpieces]
  exact List.mem_append_right _ List.mem_cons_self

theorem foldl_parseItem_itemOf {entries : List (List UInt8 × List UInt8)}
    (h : ∀ entry ∈ entries, entry.1 ≠ [] ∧ equal ∉ entry.1) (configuration : StrConfiguration) :
    (entries.map itemOf).foldl parseItem configuration =
      entries.foldl (fun m entry => m.emplace entry.1 entry.2) configuration := by
  rw [List.foldl_map]
  refine List.foldl_ext _ _ _ fun configuration entry hentry => ?_
  obtain ⟨hne, hequal⟩ := h entry hentry
  simp [parseItem, itemOf, Str.splitPair_append_cons hequal hne, hne]

theorem Printable.entries_parseConfiguration_str {stored : StrConfiguration}
    (h : stored.Printable) (configuration : StrConfiguration) :
    (configuration.parseConfiguration stored.str).entries = stored.entries := by
  have hitems : (pieces [semicolon] stored.str).foldl parseItem UnorderedMap.empty =
      (stored.entries.map itemOf).foldl parseItem UnorderedMap.empty := by
    rw [str_eq]
    cases hentries : stored.entries with
    | nil => simp [parseItem_nil]
    | cons entry entries =>
      rw [pieces_char_intercalate (by simp)]
      intro item hitem
      obtain ⟨entry', hentry', rfl⟩ := List.mem_map.mp hitem
      exact (h entry' (hentries ▸ hentry')).2.2
  rw [parseConfiguration_eq, hitems,
    foldl_parseItem_itemOf fun entry hentry => ⟨(h entry hentry).1, (h entry hentry).2.1⟩,
    UnorderedMap.entries_foldl fun m k v hk => UnorderedMap.entries_emplace hk v]
  · rfl
  · exact stored.nodup

theorem Printable.of_same {stored : StrConfiguration} (h : configuration.Printable)
    (hsame : stored.Same configuration) : stored.Printable :=
  fun entry hentry => h entry (hsame.mem_iff.mp hentry)

/-- A key has the value of its first item, and the map is that of every text it is
printed as. -/
theorem parseConfiguration_spec (configuration : StrConfiguration) (conf : List UInt8) :
    (∀ key value, (configuration.parseConfiguration conf).find key = some value ↔
      IsFirstItem conf key value) ∧
    ∀ stored : StrConfiguration, stored.Same (configuration.parseConfiguration conf) →
      ∀ other : StrConfiguration, (other.parseConfiguration stored.str).Same stored := by
  refine ⟨fun key value => find_parseConfiguration_iff, fun stored hsame other => ?_⟩
  have hprintable := (printable_parseConfiguration configuration conf).of_same hsame
  rw [UnorderedMap.Same, hprintable.entries_parseConfiguration_str other]

/-- What is read from `;a=1;b;a=2;c==;=3`. -/
def repeatedKey : StrConfiguration := ⟨[([97], [49]), ([99], [61])], by decide⟩

theorem entries_repeatedKey (configuration : StrConfiguration) :
    (configuration.parseConfiguration
      [59, 97, 61, 49, 59, 98, 59, 97, 61, 50, 59, 99, 61, 61, 59, 61, 51]).entries =
      repeatedKey.entries := by
  have hpieces : pieces [semicolon]
      [59, 97, 61, 49, 59, 98, 59, 97, 61, 50, 59, 99, 61, 61, 59, 61, 51] =
        [[], [97, 61, 49], [98], [97, 61, 50], [99, 61, 61], [61, 51]] :=
    pieces_char_intercalate (d := semicolon)
      (l := [[], [97, 61, 49], [98], [97, 61, 50], [99, 61, 61], [61, 51]]) (by decide) (by decide)
  rw [parseConfiguration_eq, hpieces]
  rfl

/-- A repeated key, printed with its entries the other way round. -/
theorem parseConfiguration_spec_repeatedKey :
    (repeatedKey.parseConfiguration [99, 61, 61, 59, 97, 61, 49]).Same repeatedKey := by
  have hround := (parseConfiguration_spec repeatedKey
    [59, 97, 61, 49, 59, 98, 59, 97, 61, 50, 59, 99, 61, 61, 59, 61, 51]).2
    ⟨[([99], [61]), ([97], [49])], by decide⟩
    (by rw [UnorderedMap.Same, entries_repeatedKey]; decide) repeatedKey
  exact hround.trans (by decide)

end StrConfiguration

end Sihd.Util
