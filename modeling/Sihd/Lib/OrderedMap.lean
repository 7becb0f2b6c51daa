import Mathlib.Order.Lattice
import Mathlib.Data.List.Basic
import Mathlib.Data.List.Nodup
import Mathlib.Data.List.Lex

/-!
# Ordered maps

An `OrderedMap κ ν` is a list of entries sorted by key, each key once. `set`
gives a key a value, in the place of the one that it had. The entries of a map,
set one after the other, make it again.
-/

universe u v

@[ext]
structure OrderedMap (κ : Type u) (ν : Type v) [LinearOrder κ] where
  entries : List (κ × ν)
  sorted : entries.Pairwise (fun a b => a.1 < b.1)

namespace OrderedMap

variable {κ : Type u} {ν : Type v} [LinearOrder κ]

def empty : OrderedMap κ ν := ⟨[], .nil⟩

/-- The entries with the value of a key set. -/
def setEntries (k : κ) (v : ν) : List (κ × ν) → List (κ × ν)
  | [] => [(k, v)]
  | e :: l =>
      if k < e.1 then (k, v) :: e :: l
      else if k = e.1 then (k, v) :: l
      else e :: setEntries k v l

theorem mem_setEntries {k : κ} {v : ν} {l : List (κ × ν)} {e : κ × ν}
    (h : e ∈ setEntries k v l) : e = (k, v) ∨ e ∈ l := by
  induction l with
  | nil => exact .inl (List.mem_singleton.mp h)
  | cons b l ih =>
    rw [setEntries] at h
    split at h
    · exact List.mem_cons.mp h
    · split at h
      · rcases List.mem_cons.mp h with rfl | h
        · exact .inl rfl
        · exact .inr (List.mem_cons_of_mem _ h)
      · rcases List.mem_cons.mp h with rfl | h
        · exact .inr List.mem_cons_self
        · exact (ih h).imp_right (List.mem_cons_of_mem _)

theorem sorted_setEntries (k : κ) (v : ν) {l : List (κ × ν)}
    (h : l.Pairwise (fun a b => a.1 < b.1)) :
    (setEntries k v l).Pairwise (fun a b => a.1 < b.1) := by
  induction l with
  | nil => exact List.pairwise_singleton _ _
  | cons b l ih =>
    obtain ⟨hb, hl⟩ := List.pairwise_cons.mp h
    rw [setEntries]
    split
    · rename_i hlt
      refine List.pairwise_cons.mpr ⟨fun e he => ?_, h⟩
      rcases List.mem_cons.mp he with rfl | he
      · exact hlt
      · exact hlt.trans (hb e he)
    · split
      · rename_i heq
        refine List.pairwise_cons.mpr ⟨fun e he => ?_, hl⟩
        exact heq.trans_lt (hb e he)
      · rename_i hnlt hne
        refine List.pairwise_cons.mpr ⟨fun e he => ?_, ih hl⟩
        rcases mem_setEntries he with rfl | he
        · exact lt_of_le_of_ne (not_lt.mp hnlt) (Ne.symm hne)
        · exact hb e he

def set (m : OrderedMap κ ν) (k : κ) (v : ν) : OrderedMap κ ν where
  entries := setEntries k v m.entries
  sorted := sorted_setEntries k v m.sorted

/-- Set some entries, one after the other. -/
def setAll (m : OrderedMap κ ν) (l : List (κ × ν)) : OrderedMap κ ν :=
  l.foldl (fun m e => m.set e.1 e.2) m

def find (m : OrderedMap κ ν) (k : κ) : Option ν :=
  (m.entries.find? fun e => e.1 = k).map Prod.snd

def erase (m : OrderedMap κ ν) (k : κ) : OrderedMap κ ν where
  entries := m.entries.filter fun e => e.1 ≠ k
  sorted := m.sorted.filter _

def size (m : OrderedMap κ ν) : Nat := m.entries.length

@[simp] theorem find_empty (k : κ) : (empty : OrderedMap κ ν).find k = none := rfl

theorem find?_setEntries (k : κ) (v : ν) (l : List (κ × ν)) (k' : κ) :
    (setEntries k v l).find? (fun e => e.1 = k') =
      if k' = k then some (k, v) else l.find? fun e => e.1 = k' := by
  induction l with
  | nil =>
    by_cases hk : k' = k
    · simp [setEntries, hk]
    · simp [setEntries, hk, Ne.symm hk]
  | cons e l ih =>
    have hskip : k' = k → ∀ e : κ × ν, k < e.1 ∨ e.1 < k → ¬ e.1 = k' := by
      rintro rfl e (hlt | hlt)
      · exact hlt.ne'
      · exact hlt.ne
    rw [setEntries]
    split
    · by_cases hk : k' = k
      · simp [hk]
      · simp [hk, Ne.symm hk]
    · split
      · rename_i heq
        by_cases hk : k' = k
        · simp [hk]
        · simp [hk, Ne.symm hk, ← heq]
      · rename_i hnlt hne
        have hlt : e.1 < k := lt_of_le_of_ne (not_lt.mp hnlt) (Ne.symm hne)
        by_cases hk : k' = k
        · rw [if_pos hk] at ih ⊢
          rw [List.find?_cons_of_neg (by simpa using hskip hk e (.inr hlt)), ih]
        · rw [if_neg hk] at ih ⊢
          rw [List.find?_cons, List.find?_cons, ih]

theorem find_set (m : OrderedMap κ ν) (k : κ) (v : ν) (k' : κ) :
    (m.set k v).find k' = if k' = k then some v else m.find k' := by
  rw [find, set, find?_setEntries]
  split <;> rfl

@[simp] theorem find_set_self (m : OrderedMap κ ν) (k : κ) (v : ν) :
    (m.set k v).find k = some v := by
  rw [find_set, if_pos rfl]

theorem find_set_of_ne (m : OrderedMap κ ν) {k k' : κ} (h : k' ≠ k) (v : ν) :
    (m.set k v).find k' = m.find k' := by
  rw [find_set, if_neg h]

@[simp] theorem find_erase_self (m : OrderedMap κ ν) (k : κ) : (m.erase k).find k = none := by
  rw [find, erase, List.find?_eq_none.mpr, Option.map_none]
  intro e he
  simpa using List.of_mem_filter he

theorem find_erase_of_ne (m : OrderedMap κ ν) {k k' : κ} (h : k' ≠ k) :
    (m.erase k).find k' = m.find k' := by
  rw [find, erase, List.find?_filter, find]
  congr 2
  funext e
  by_cases he : e.1 = k'
  · simp [he, h]
  · simp [he]

theorem nodup_keys (m : OrderedMap κ ν) : (m.entries.map Prod.fst).Nodup :=
  List.pairwise_map.mpr (m.sorted.imp fun hlt => ne_of_lt hlt)

/-- What a key has is the value of its entry. -/
theorem find_eq_some_iff {m : OrderedMap κ ν} {k : κ} {v : ν} :
    m.find k = some v ↔ (k, v) ∈ m.entries := by
  rw [find, Option.map_eq_some_iff]
  constructor
  · rintro ⟨⟨k', v'⟩, hfound, rfl⟩
    have hk : k' = k := by simpa using List.find?_some hfound
    exact hk ▸ List.mem_of_find?_eq_some hfound
  · intro hmem
    cases hfound : m.entries.find? fun e => e.1 = k with
    | none => simpa using List.find?_eq_none.mp hfound _ hmem
    | some e =>
      have hk : e.1 = k := by simpa using List.find?_some hfound
      have hmem' := List.mem_of_find?_eq_some hfound
      exact ⟨e, rfl, congrArg Prod.snd (List.inj_on_of_nodup_map m.nodup_keys hmem' hmem hk)⟩

theorem find_of_find_erase {m : OrderedMap κ ν} {k k' : κ} {v : ν}
    (h : (m.erase k).find k' = some v) : m.find k' = some v := by
  by_cases hk : k' = k
  · rw [hk, find_erase_self] at h
    cases h
  · rwa [find_erase_of_ne m hk] at h

/-- A key that has a value keeps it, or is set to one of the others. -/
theorem find_setAll_of_find {m : OrderedMap κ ν} {k : κ} {v : ν} (h : m.find k = some v)
    (l : List (κ × ν)) : ∃ v', (m.setAll l).find k = some v' ∧ (v' = v ∨ (k, v') ∈ l) := by
  induction l generalizing m v with
  | nil => exact ⟨v, h, .inl rfl⟩
  | cons e l ih =>
    by_cases hk : k = e.1
    · subst hk
      obtain ⟨v', hfind, hv'⟩ := ih (m.find_set_self e.1 e.2)
      refine ⟨v', hfind, .inr ?_⟩
      rcases hv' with rfl | hv'
      · exact List.mem_cons_self
      · exact List.mem_cons_of_mem _ hv'
    · rw [← m.find_set_of_ne hk e.2] at h
      obtain ⟨v', hfind, hv'⟩ := ih h
      exact ⟨v', hfind, hv'.imp_right (List.mem_cons_of_mem _)⟩

/-- A key that is larger than the others is set at the end. -/
theorem setEntries_of_lt {k : κ} {v : ν} {l : List (κ × ν)} (h : ∀ e ∈ l, e.1 < k) :
    setEntries k v l = l ++ [(k, v)] := by
  induction l with
  | nil => rfl
  | cons b l ih =>
    rw [List.forall_mem_cons] at h
    rw [setEntries, if_neg h.1.asymm, if_neg h.1.ne', ih h.2, List.cons_append]

theorem entries_setAll {m : OrderedMap κ ν} {l : List (κ × ν)}
    (h : (m.entries ++ l).Pairwise (fun a b => a.1 < b.1)) :
    (m.setAll l).entries = m.entries ++ l := by
  induction l generalizing m with
  | nil => simp [setAll]
  | cons e l ih =>
    have hset : (m.set e.1 e.2).entries = m.entries ++ [e] := by
      refine setEntries_of_lt fun b hb => ?_
      exact (List.pairwise_append.mp h).2.2 b hb e List.mem_cons_self
    rw [List.append_cons, ← hset] at h
    have ih := ih h
    rw [hset, ← List.append_cons] at ih
    exact ih

/-- The entries of a map make it again. -/
theorem setAll_entries (m : OrderedMap κ ν) : empty.setAll m.entries = m := by
  ext1
  rw [entries_setAll]
  · rfl
  · exact m.sorted

end OrderedMap

/-- Bytes compare as unsigned numbers. -/
instance instLinearOrderUInt8 : LinearOrder UInt8 where
  le_refl _ := UInt8.le_refl _
  le_trans _ _ _ := UInt8.le_trans
  lt_iff_le_not_ge a b := by
    rw [UInt8.lt_iff_toNat_lt, UInt8.le_iff_toNat_le, UInt8.le_iff_toNat_le]
    omega
  le_antisymm _ _ := UInt8.le_antisymm
  le_total _ _ := UInt8.le_total _ _
  toDecidableLE := inferInstance
  toDecidableLT := inferInstance
  toDecidableEq := inferInstance

instance instLawfulBEqUInt8 : LawfulBEq UInt8 := inferInstance
