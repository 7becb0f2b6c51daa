import Mathlib.Data.List.Nodup
import Mathlib.Data.List.Perm.Basic
import Mathlib.Data.Prod.Basic
import Mathlib.Logic.Function.Basic
import Mathlib.Tactic.Common

/-!
# Unordered maps

An `UnorderedMap κ ν` is a list of entries, each key once, in the order in which
an iteration meets them. Two maps are the same when their entries are, whatever
the order. `emplace` leaves a key that is there alone, `assign` gives it a value.
-/

universe u v

structure UnorderedMap (κ : Type u) (ν : Type v) where
  entries : List (κ × ν)
  nodup : (entries.map Prod.fst).Nodup

namespace UnorderedMap

variable {κ : Type u} {ν : Type v}

def empty : UnorderedMap κ ν := ⟨[], List.nodup_nil⟩

def keys (m : UnorderedMap κ ν) : List κ := m.entries.map Prod.fst

def Same (m m' : UnorderedMap κ ν) : Prop := m.entries.Perm m'.entries

theorem Same.mem_iff {m m' : UnorderedMap κ ν} (h : m.Same m') {e : κ × ν} :
    e ∈ m.entries ↔ e ∈ m'.entries := List.Perm.mem_iff h

theorem eq_of_mem {m : UnorderedMap κ ν} {k : κ} {v w : ν} (hv : (k, v) ∈ m.entries)
    (hw : (k, w) ∈ m.entries) : v = w :=
  congrArg Prod.snd (List.inj_on_of_nodup_map m.nodup hv hw rfl)

/-- Entries with new keys, added one after the other. -/
theorem entries_foldl {add : UnorderedMap κ ν → κ → ν → UnorderedMap κ ν}
    (hadd : ∀ (m : UnorderedMap κ ν) (k : κ) (v : ν), k ∉ m.keys →
      (add m k v).entries = m.entries ++ [(k, v)])
    {m : UnorderedMap κ ν} {l : List (κ × ν)}
    (h : ((m.entries ++ l).map Prod.fst).Nodup) :
    (l.foldl (fun m e => add m e.1 e.2) m).entries = m.entries ++ l := by
  induction l generalizing m with
  | nil => simp
  | cons e l ih =>
    have hmem : e.1 ∉ m.keys := by
      intro hmem
      rw [List.map_append, List.map_cons, List.nodup_append'] at h
      exact h.2.2 hmem List.mem_cons_self
    have hentries : (add m e.1 e.2).entries = m.entries ++ [e] := hadd m e.1 e.2 hmem
    rw [List.append_cons, ← hentries] at h
    rw [List.foldl_cons, ih h, hentries, ← List.append_cons]

variable [DecidableEq κ]

/-- An entry behind the others, when its key is not there. -/
def emplace (m : UnorderedMap κ ν) (k : κ) (v : ν) : UnorderedMap κ ν :=
  if h : k ∈ m.keys then m
  else
    { entries := m.entries ++ [(k, v)]
      nodup := by
        rw [List.map_append, List.nodup_append']
        refine ⟨m.nodup, List.nodup_singleton _, ?_⟩
        intro a ha ha'
        rw [List.mem_singleton.mp ha'] at ha
        exact h ha }

/-- The entries with the value of a key replaced. -/
def replaceEntries (k : κ) (v : ν) (l : List (κ × ν)) : List (κ × ν) :=
  l.map fun e => if e.1 = k then (k, v) else e

theorem map_fst_replaceEntries (k : κ) (v : ν) (l : List (κ × ν)) :
    (replaceEntries k v l).map Prod.fst = l.map Prod.fst := by
  rw [replaceEntries, List.map_map]
  refine List.map_congr_left fun e _ => ?_
  dsimp only [Function.comp_apply]
  split
  · rename_i h
    exact h.symm
  · rfl

theorem replaceEntries_cons (k : κ) (v : ν) (e : κ × ν) (l : List (κ × ν)) :
    replaceEntries k v (e :: l) =
      (if e.1 = k then (k, v) else e) :: replaceEntries k v l := List.map_cons

theorem replaceEntries_of_notMem {k : κ} {l : List (κ × ν)} (h : k ∉ l.map Prod.fst) (v : ν) :
    replaceEntries k v l = l := by
  induction l with
  | nil => rfl
  | cons e l ih =>
    rw [List.map_cons, List.mem_cons, not_or] at h
    rw [replaceEntries_cons, ih h.2, if_neg (Ne.symm h.1)]

/-- `operator[]` on the left of an assignment. -/
def assign (m : UnorderedMap κ ν) (k : κ) (v : ν) : UnorderedMap κ ν :=
  if k ∈ m.keys then
    { entries := replaceEntries k v m.entries
      nodup := by
        rw [map_fst_replaceEntries]
        exact m.nodup }
  else m.emplace k v

/-- A map made from entries. The first one of a key counts. -/
def ofList (l : List (κ × ν)) : UnorderedMap κ ν :=
  l.foldl (fun m e => m.emplace e.1 e.2) empty

def find (m : UnorderedMap κ ν) (k : κ) : Option ν :=
  (m.entries.find? fun e => e.1 = k).map Prod.snd

theorem entries_emplace {m : UnorderedMap κ ν} {k : κ} (h : k ∉ m.keys) (v : ν) :
    (m.emplace k v).entries = m.entries ++ [(k, v)] := by
  rw [emplace, dif_neg h]

theorem emplace_of_mem {m : UnorderedMap κ ν} {k : κ} (h : k ∈ m.keys) (v : ν) :
    m.emplace k v = m := by
  rw [emplace, dif_pos h]

theorem entries_assign {m : UnorderedMap κ ν} {k : κ} (h : k ∉ m.keys) (v : ν) :
    (m.assign k v).entries = m.entries ++ [(k, v)] := by
  rw [assign, if_neg h, entries_emplace h]

theorem entries_assign_of_mem {m : UnorderedMap κ ν} {k : κ} (h : k ∈ m.keys) (v : ν) :
    (m.assign k v).entries = replaceEntries k v m.entries := by
  rw [assign, if_pos h]

theorem mem_emplace {m : UnorderedMap κ ν} {k : κ} {v : ν} {e : κ × ν}
    (h : e ∈ (m.emplace k v).entries) : e ∈ m.entries ∨ e = (k, v) := by
  by_cases hk : k ∈ m.keys
  · rw [emplace_of_mem hk] at h
    exact .inl h
  · rw [entries_emplace hk, List.mem_append, List.mem_singleton] at h
    exact h

theorem mem_assign {m : UnorderedMap κ ν} {k : κ} {v : ν} {e : κ × ν}
    (h : e ∈ (m.assign k v).entries) : e ∈ m.entries ∨ e = (k, v) := by
  rw [assign] at h
  split at h
  · obtain ⟨e', he', heq⟩ := List.mem_map.mp h
    split at heq
    · exact .inr heq.symm
    · exact .inl (heq ▸ he')
  · exact mem_emplace h

theorem find?_replaceEntries_self {k : κ} {l : List (κ × ν)} (h : k ∈ l.map Prod.fst) (v : ν) :
    (replaceEntries k v l).find? (fun e => e.1 = k) = some (k, v) := by
  induction l with
  | nil => cases h
  | cons e l ih =>
    rw [replaceEntries, List.map_cons]
    by_cases he : e.1 = k
    · rw [if_pos he, List.find?_cons_of_pos (by simp)]
    · rw [if_neg he, List.find?_cons_of_neg (by simp [he])]
      rw [List.map_cons, List.mem_cons] at h
      exact ih (h.resolve_left (Ne.symm he))

theorem find?_replaceEntries_of_ne {k k' : κ} (h : k' ≠ k) (v : ν) (l : List (κ × ν)) :
    (replaceEntries k v l).find? (fun e => e.1 = k') = l.find? fun e => e.1 = k' := by
  induction l with
  | nil => rfl
  | cons e l ih =>
    rw [replaceEntries, List.map_cons]
    by_cases he : e.1 = k
    · rw [if_pos he, List.find?_cons_of_neg (by simp [h.symm]),
        List.find?_cons_of_neg (by simp [he, h.symm])]
      exact ih
    · rw [if_neg he, List.find?_cons, List.find?_cons]
      split
      · rfl
      · exact ih

/-- A key has the value that was assigned last. -/
theorem find_assign_self (m : UnorderedMap κ ν) (k : κ) (v : ν) :
    (m.assign k v).find k = some v := by
  by_cases hk : k ∈ m.keys
  · rw [find, assign, if_pos hk]
    dsimp only
    rw [find?_replaceEntries_self hk, Option.map_some]
  · have hnone : m.entries.find? (fun e => e.1 = k) = none := by
      refine List.find?_eq_none.mpr fun e he hek => hk ?_
      rw [← of_decide_eq_true hek]
      exact List.mem_map_of_mem he
    rw [find, entries_assign hk, List.find?_append, hnone, Option.none_or,
      List.find?_cons_of_pos (by simp), Option.map_some]

theorem find_assign_of_ne (m : UnorderedMap κ ν) {k k' : κ} (h : k' ≠ k) (v : ν) :
    (m.assign k v).find k' = m.find k' := by
  by_cases hk : k ∈ m.keys
  · rw [find, assign, if_pos hk]
    dsimp only
    rw [find?_replaceEntries_of_ne h, find]
  · rw [find, entries_assign hk, List.find?_append, List.find?_cons_of_neg (by simp [h.symm]),
      List.find?_nil, Option.or_none, find]

theorem find_eq_some_iff {m : UnorderedMap κ ν} {k : κ} {v : ν} :
    m.find k = some v ↔ (k, v) ∈ m.entries := by
  rw [find, Option.map_eq_some_iff]
  constructor
  · rintro ⟨⟨k', v'⟩, hfind, rfl⟩
    have hk : k' = k := by simpa using List.find?_some hfind
    exact hk ▸ List.mem_of_find?_eq_some hfind
  · intro hmem
    have hsome : (m.entries.find? fun e => e.1 = k).isSome := by
      rw [List.find?_isSome]
      exact ⟨(k, v), hmem, by simp⟩
    obtain ⟨⟨k', v'⟩, hfind⟩ := Option.isSome_iff_exists.mp hsome
    have hk : k' = k := by simpa using List.find?_some hfind
    subst hk
    exact ⟨_, hfind, eq_of_mem (List.mem_of_find?_eq_some hfind) hmem⟩

theorem find_eq_none_iff {m : UnorderedMap κ ν} {k : κ} : m.find k = none ↔ k ∉ m.keys := by
  rw [find, Option.map_eq_none_iff, List.find?_eq_none, keys, List.mem_map]
  simp only [decide_eq_true_iff, not_exists, not_and]

/-- The position of a key is the last one when its entry is. -/
theorem getLast?_iff_of_findIdx? {m : UnorderedMap κ ν} {k : κ} {i : Nat}
    (h : m.entries.findIdx? (fun e => e.1 = k) = some i) :
    (∃ e ∈ m.entries.getLast?, e.1 = k) ↔ i + 1 = m.entries.length := by
  obtain ⟨hlt, hkey, -⟩ := List.findIdx?_eq_some_iff_getElem.mp h
  have hkey : m.entries[i].1 = k := of_decide_eq_true hkey
  rw [List.getLast?_eq_getElem?]
  constructor
  · rintro ⟨e, he, hek⟩
    rw [Option.mem_def] at he
    have hsame : (m.entries.map Prod.fst)[i]? =
        (m.entries.map Prod.fst)[m.entries.length - 1]? := by
      rw [List.getElem?_map, List.getElem?_map, he, List.getElem?_eq_getElem hlt,
        Option.map_some, Option.map_some, hek, hkey]
    have hindex := (List.getElem?_inj (by simpa using hlt) m.nodup).mp hsame
    omega
  · intro hlast
    refine ⟨m.entries[i], ?_, hkey⟩
    rw [← hlast, Nat.add_sub_cancel]
    exact List.getElem?_eq_getElem hlt

/-- The entries of one key. -/
theorem filter_entries (m : UnorderedMap κ ν) (k : κ) :
    m.entries.filter (fun e => e.1 = k) = (m.find k).toList.map fun v => (k, v) := by
  obtain ⟨entries, nodup⟩ := m
  dsimp only [find]
  induction entries with
  | nil => rfl
  | cons e l ih =>
    rw [List.map_cons, List.nodup_cons] at nodup
    by_cases he : e.1 = k
    · subst he
      have hrest : l.filter (fun e' => e'.1 = e.1) = [] := by
        rw [List.filter_eq_nil_iff]
        intro e' he' heq
        exact nodup.1 (of_decide_eq_true heq ▸ List.mem_map_of_mem he')
      rw [List.filter_cons_of_pos (by simp), List.find?_cons_of_pos (by simp), hrest]
      rfl
    · rw [List.filter_cons_of_neg (by simpa using he), List.find?_cons_of_neg (by simpa using he),
        ih nodup.2]

/-- A key that is there keeps its value. -/
theorem find_emplace (m : UnorderedMap κ ν) (k : κ) (v : ν) (k' : κ) :
    (m.emplace k v).find k' = if k' = k then some ((m.find k).getD v) else m.find k' := by
  by_cases hmem : k ∈ m.keys
  · rw [emplace_of_mem hmem]
    split
    · rename_i hk
      subst hk
      cases hfind : m.find k' with
      | none => exact absurd hmem (find_eq_none_iff.mp hfind)
      | some w => rfl
    · rfl
  · rw [find_eq_none_iff.mpr hmem, Option.getD_none, find, entries_emplace hmem,
      List.find?_append, find]
    split
    · rename_i hk
      subst hk
      have hnone := Option.map_eq_none_iff.mp (find_eq_none_iff.mpr hmem)
      simp [hnone]
    · rename_i hk
      simp [Ne.symm hk]

/-- A map without a key. -/
def erase (m : UnorderedMap κ ν) (k : κ) : UnorderedMap κ ν where
  entries := m.entries.filter fun e => e.1 ≠ k
  nodup := m.nodup.sublist (List.filter_sublist.map Prod.fst)

/-- The one entry of the key goes. -/
theorem entries_erase (m : UnorderedMap κ ν) (k : κ) :
    (m.erase k).entries = m.entries.eraseP fun e => e.1 = k := by
  obtain ⟨entries, nodup⟩ := m
  dsimp only [erase]
  induction entries with
  | nil => rfl
  | cons e l ih =>
    rw [List.map_cons, List.nodup_cons] at nodup
    by_cases he : e.1 = k
    · have hrest : l.filter (fun e => e.1 ≠ k) = l := by
        rw [List.filter_eq_self]
        intro e' he'
        have hne : e'.1 ≠ k := fun heq => nodup.1 (he ▸ heq ▸ List.mem_map_of_mem he')
        simpa using hne
      rw [List.eraseP_cons_of_pos (by simpa using he), List.filter_cons_of_neg (by simpa using he),
        hrest]
    · rw [List.eraseP_cons_of_neg (by simpa using he), List.filter_cons_of_pos (by simpa using he),
        ih nodup.2]

omit [DecidableEq κ] in
theorem ext_entries {m m' : UnorderedMap κ ν} (h : m.entries = m'.entries) : m = m' := by
  cases m
  cases m'
  cases h
  rfl

/-- A key that was not there goes again. -/
theorem erase_assign_of_notMem {m : UnorderedMap κ ν} {k : κ} (h : k ∉ m.keys) (v : ν) :
    (m.assign k v).erase k = m := by
  refine ext_entries ?_
  dsimp only [erase]
  rw [entries_assign h, List.filter_append, List.filter_cons_of_neg (by simp),
    List.filter_nil, List.append_nil, List.filter_eq_self]
  intro e he
  have hne : e.1 ≠ k := fun heq => h (heq ▸ List.mem_map_of_mem he)
  simpa using hne

theorem find_erase_self (m : UnorderedMap κ ν) (k : κ) : (m.erase k).find k = none := by
  rw [find, erase, Option.map_eq_none_iff, List.find?_eq_none]
  intro e he
  simpa using (List.mem_filter.mp he).2

theorem find_erase_of_ne (m : UnorderedMap κ ν) {k k' : κ} (h : k' ≠ k) :
    (m.erase k).find k' = m.find k' := by
  ext v
  rw [find_eq_some_iff, find_eq_some_iff, erase, List.mem_filter]
  simp [h]

theorem find_assign (m : UnorderedMap κ ν) (k : κ) (v : ν) (k' : κ) :
    (m.assign k v).find k' = if k' = k then some v else m.find k' := by
  split
  · rename_i hk
    rw [hk, find_assign_self]
  · rename_i hk
    exact find_assign_of_ne m hk v

theorem find_erase (m : UnorderedMap κ ν) (k k' : κ) :
    (m.erase k).find k' = if k' = k then none else m.find k' := by
  split
  · rename_i hk
    rw [hk, find_erase_self]
  · rename_i hk
    exact find_erase_of_ne m hk

theorem find_foldl_erase (m : UnorderedMap κ ν) (ks : List κ) (k : κ) :
    (ks.foldl erase m).find k = if k ∈ ks then none else m.find k := by
  induction ks generalizing m with
  | nil => simp
  | cons k' ks ih =>
    rw [List.foldl_cons, ih, find_erase]
    by_cases hk : k = k' <;> by_cases hks : k ∈ ks <;> simp [hk, hks]

theorem find_isSome_iff {m : UnorderedMap κ ν} {k : κ} : (m.find k).isSome ↔ k ∈ m.keys := by
  rw [← not_iff_not, Bool.not_eq_true, Option.isSome_eq_false_iff, Option.isNone_iff_eq_none,
    find_eq_none_iff]

theorem mem_keys_assign {m : UnorderedMap κ ν} {k k' : κ} {v : ν} :
    k' ∈ (m.assign k v).keys ↔ k' = k ∨ k' ∈ m.keys := by
  rw [← find_isSome_iff, find_assign]
  split
  · rename_i hk
    exact iff_of_true rfl (.inl hk)
  · rename_i hk
    rw [find_isSome_iff, or_iff_right hk]

/-! ### Maps in a map -/

section FindIn

variable {κ' : Type*} {ν' : Type*} [DecidableEq κ'] {inner : ν → UnorderedMap κ' ν'}
  {m : UnorderedMap κ ν} {k : κ} {k' : κ'} {v w : ν}

/-- What the map in the value of a key has at a key of its own. -/
def findIn (inner : ν → UnorderedMap κ' ν') (m : UnorderedMap κ ν) (p : κ × κ') : Option ν' :=
  (m.find p.1).bind fun v => (inner v).find p.2

theorem findIn_of_find (h : m.find k = some v) (k' : κ') :
    m.findIn inner (k, k') = (inner v).find k' := by rw [findIn, h, Option.bind_some]

theorem findIn_assign (m : UnorderedMap κ ν) (k : κ) (v : ν) (p : κ × κ') :
    (m.assign k v).findIn inner p =
      if p.1 = k then (inner v).find p.2 else m.findIn inner p := by
  rw [findIn, find_assign]
  split
  · rfl
  · rfl

theorem findIn_erase (m : UnorderedMap κ ν) (k : κ) (p : κ × κ') :
    (m.erase k).findIn inner p = if p.1 = k then none else m.findIn inner p := by
  rw [findIn, find_erase]
  split
  · rfl
  · rfl

/-- A value is replaced by one whose map differs at one key. -/
theorem findIn_assign_update (h : m.find k = some v) {x : Option ν'}
    (hw : ∀ b, (inner w).find b = if b = k' then x else (inner v).find b) :
    (m.assign k w).findIn inner = Function.update (m.findIn inner) (k, k') x := by
  funext p
  rw [findIn_assign, Function.update_apply]
  by_cases hk : p.1 = k
  · rw [if_pos hk, hw]
    by_cases hk' : p.2 = k'
    · rw [if_pos hk', if_pos (Prod.ext hk hk')]
    · rw [if_neg hk', if_neg fun heq => hk' (congrArg Prod.snd heq), findIn, hk, h,
        Option.bind_some]
  · rw [if_neg hk, if_neg fun heq => hk (congrArg Prod.fst heq)]

/-- All keys of the maps in a map. -/
def keysIn (inner : ν → UnorderedMap κ' ν') (m : UnorderedMap κ ν) : List (κ × κ') :=
  m.entries.flatMap fun e => (inner e.2).keys.map (Prod.mk e.1)

theorem mem_keysIn {p : κ × κ'} : p ∈ m.keysIn inner ↔ (m.findIn inner p).isSome := by
  rw [keysIn, List.mem_flatMap, findIn]
  constructor
  · rintro ⟨e, he, hp⟩
    obtain ⟨k', hk', rfl⟩ := List.mem_map.mp hp
    rw [find_eq_some_iff.mpr he, Option.bind_some]
    exact find_isSome_iff.mpr hk'
  · intro hsome
    obtain ⟨x, hx⟩ := Option.isSome_iff_exists.mp hsome
    obtain ⟨v, hv, hfind⟩ := Option.bind_eq_some_iff.mp hx
    exact ⟨(p.1, v), find_eq_some_iff.mp hv,
      List.mem_map.mpr ⟨p.2, find_isSome_iff.mp (Option.isSome_of_mem hfind), rfl⟩⟩

omit [DecidableEq κ] [DecidableEq κ'] in
theorem nodup_keysIn (inner : ν → UnorderedMap κ' ν') (m : UnorderedMap κ ν) :
    (m.keysIn inner).Nodup := by
  refine List.nodup_flatMap.mpr
    ⟨fun e _ => (inner e.2).nodup.map (Prod.mk_right_injective e.1), ?_⟩
  refine (List.pairwise_map.mp m.nodup).imp fun hne => ?_
  rintro p hp hp'
  obtain ⟨k, -, rfl⟩ := List.mem_map.mp hp
  obtain ⟨k', -, heq⟩ := List.mem_map.mp hp'
  exact hne (congrArg Prod.fst heq).symm

end FindIn

/-- A map with every value changed. -/
def mapValues (m : UnorderedMap κ ν) (f : ν → ν) : UnorderedMap κ ν where
  entries := m.entries.map fun e => (e.1, f e.2)
  nodup := by
    rw [List.map_map]
    exact m.nodup

theorem find_mapValues (m : UnorderedMap κ ν) (f : ν → ν) (k : κ) :
    (m.mapValues f).find k = (m.find k).map f := by
  ext v
  rw [find_eq_some_iff, mapValues, List.mem_map, Option.map_eq_some_iff]
  constructor
  · rintro ⟨⟨k', v'⟩, hmem, heq⟩
    cases heq
    exact ⟨v', find_eq_some_iff.mpr hmem, rfl⟩
  · rintro ⟨v', hfind, rfl⟩
    exact ⟨(k, v'), find_eq_some_iff.mp hfind, rfl⟩

/-! ### A list of the keys

A map that is kept beside a list of its keys, in the order of their insertion.
-/

/-- The list has the keys of the map, each once. -/
structure Indexed (keys : List κ) (m : UnorderedMap κ ν) : Prop where
  nodup : keys.Nodup
  mem_iff : ∀ k, k ∈ keys ↔ k ∈ m.keys

omit [DecidableEq κ] in
theorem indexed_empty : Indexed [] (empty : UnorderedMap κ ν) :=
  ⟨List.nodup_nil, fun _ => Iff.rfl⟩

theorem mem_keys_erase {m : UnorderedMap κ ν} {k k' : κ} :
    k' ∈ (m.erase k).keys ↔ k' ≠ k ∧ k' ∈ m.keys := by
  simp only [keys, erase, List.mem_map, List.mem_filter]
  constructor
  · rintro ⟨e, ⟨he, hne⟩, rfl⟩
    exact ⟨by simpa using hne, e, he, rfl⟩
  · rintro ⟨hne, e, he, rfl⟩
    exact ⟨e, ⟨he, by simpa using hne⟩, rfl⟩

namespace Indexed

variable {keys : List κ} {m : UnorderedMap κ ν} {k : κ}

theorem emplace (h : Indexed keys m) (hk : k ∉ keys) (v : ν) :
    Indexed (keys ++ [k]) (m.emplace k v) := by
  have hm : k ∉ m.keys := fun hm => hk ((h.mem_iff k).mpr hm)
  refine ⟨List.nodup_append.mpr ⟨h.nodup, List.nodup_singleton k, ?_⟩, fun k' => ?_⟩
  · intro a ha b hb
    obtain rfl := List.mem_singleton.mp hb
    exact fun heq => hk (heq ▸ ha)
  · rw [UnorderedMap.keys, entries_emplace hm, List.map_append, List.mem_append, List.mem_append,
      h.mem_iff k']
    rfl

theorem assign (h : Indexed keys m) (hk : k ∉ keys) (v : ν) :
    Indexed (keys ++ [k]) (m.assign k v) := by
  rw [UnorderedMap.assign, if_neg fun hm => hk ((h.mem_iff k).mpr hm)]
  exact h.emplace hk v

theorem erase [BEq κ] [LawfulBEq κ] (h : Indexed keys m) (k : κ) :
    Indexed (keys.erase k) (m.erase k) := by
  refine ⟨h.nodup.erase k, fun k' => ?_⟩
  rw [h.nodup.mem_erase_iff, mem_keys_erase, h.mem_iff k']

end Indexed

end UnorderedMap
