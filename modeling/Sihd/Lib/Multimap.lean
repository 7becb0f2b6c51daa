import Mathlib.Data.List.Sort
import Mathlib.Order.Defs.LinearOrder

/-!
# Ordered multimaps

A `Multimap κ ν` is a list of entries sorted by key, where a key may occur
several times. `emplace` inserts an entry after every entry of the same key,
`erase` removes the first entry whose value passes a test, and `beginKey?`
reads the smallest key. Sortedness is a field, so it never has to be proved
again by the users of the structure.
-/

universe u v

/-- A multimap: entries sorted by key, equal keys in insertion order. -/
@[ext]
structure Multimap (κ : Type u) (ν : Type v) [LinearOrder κ] where
  entries : List (κ × ν)
  sorted : entries.Pairwise (fun a b => a.1 ≤ b.1)

namespace Multimap

variable {κ : Type u} {ν : Type v} [LinearOrder κ]

/-- The multimap without entries. -/
def empty : Multimap κ ν := ⟨[], .nil⟩

/-- The insertion order: an entry goes before the first strictly larger
key. -/
abbrev before (a b : κ × ν) : Prop := a.1 < b.1

theorem sorted_orderedInsert (e : κ × ν) {l : List (κ × ν)}
    (h : l.Pairwise (fun a b => a.1 ≤ b.1)) :
    (l.orderedInsert before e).Pairwise (fun a b => a.1 ≤ b.1) := by
  induction l with
  | nil => simp
  | cons b l ih =>
      obtain ⟨hb, hl⟩ := List.pairwise_cons.mp h
      by_cases hlt : before e b
      · rw [List.orderedInsert_cons_of_le _ _ hlt]
        refine List.pairwise_cons.mpr ⟨?_, h⟩
        intro c hc
        rcases List.mem_cons.mp hc with rfl | hc
        · exact hlt.le
        · exact hlt.le.trans (hb c hc)
      · rw [List.orderedInsert_of_not_le _ _ hlt]
        refine List.pairwise_cons.mpr ⟨?_, ih hl⟩
        intro c hc
        rcases (List.mem_orderedInsert _).mp hc with rfl | hc
        · exact not_lt.mp hlt
        · exact hb c hc

/-- Insert an entry after the entries of the same key. -/
def emplace (m : Multimap κ ν) (k : κ) (x : ν) : Multimap κ ν :=
  ⟨m.entries.orderedInsert before (k, x), sorted_orderedInsert (k, x) m.sorted⟩

/-- Remove the entry at the beginning, if there is one. -/
def eraseBegin (m : Multimap κ ν) : Multimap κ ν :=
  ⟨m.entries.tail, m.sorted.tail⟩

/-- Remove the first entry whose value passes the test. -/
def eraseFirst (m : Multimap κ ν) (p : ν → Bool) : Multimap κ ν :=
  ⟨m.entries.eraseP (fun e => p e.2), m.sorted.sublist List.eraseP_sublist⟩

/-- The entry at the beginning. -/
def begin? (m : Multimap κ ν) : Option (κ × ν) := m.entries.head?

/-- The values, in key order. -/
def values (m : Multimap κ ν) : List ν := m.entries.map Prod.snd

/-- `k` is the smallest key. -/
def IsMinKey (m : Multimap κ ν) (k : κ) : Prop :=
  (∃ x, (k, x) ∈ m.entries) ∧ ∀ e ∈ m.entries, k ≤ e.1

@[simp] theorem entries_empty : (empty : Multimap κ ν).entries = [] := rfl

@[simp] theorem values_empty : (empty : Multimap κ ν).values = [] := rfl

@[simp] theorem mem_entries_emplace (m : Multimap κ ν) (k : κ) (x : ν)
    (e : κ × ν) :
    e ∈ (m.emplace k x).entries ↔ e = (k, x) ∨ e ∈ m.entries := by
  simp [emplace]

theorem entries_emplace_perm (m : Multimap κ ν) (k : κ) (x : ν) :
    (m.emplace k x).entries.Perm ((k, x) :: m.entries) :=
  List.perm_orderedInsert before (k, x) m.entries

theorem values_emplace_perm (m : Multimap κ ν) (k : κ) (x : ν) :
    (m.emplace k x).values.Perm (x :: m.values) := by
  simpa [values] using (entries_emplace_perm m k x).map Prod.snd

theorem entries_emplace_ne_nil (m : Multimap κ ν) (k : κ) (x : ν) :
    (m.emplace k x).entries ≠ [] := by
  intro h
  have hmem : (k, x) ∈ (m.emplace k x).entries := by simp
  rw [h] at hmem
  exact absurd hmem (by simp)

theorem begin?_eq_none_iff (m : Multimap κ ν) :
    m.begin? = none ↔ m.entries = [] := by
  simp [begin?, List.head?_eq_none_iff]

/-- The entry at the beginning has the smallest key. -/
theorem isMinKey_of_begin? {m : Multimap κ ν} {e : κ × ν}
    (h : m.begin? = some e) : m.IsMinKey e.1 := by
  obtain ⟨l, hl⟩ : ∃ l, m.entries = e :: l := by
    cases hm : m.entries with
    | nil => simp [begin?, hm] at h
    | cons b l =>
        have hb : b = e := by simpa [begin?, hm] using h
        exact ⟨l, by rw [hb]⟩
  have hsorted := m.sorted
  rw [hl] at hsorted
  refine ⟨⟨e.2, by simp [hl]⟩, ?_⟩
  intro b hb
  rw [hl] at hb
  rcases List.mem_cons.mp hb with rfl | hb
  · exact le_rfl
  · exact (List.pairwise_cons.mp hsorted).1 b hb

theorem IsMinKey.unique {m : Multimap κ ν} {k k' : κ} (h : m.IsMinKey k)
    (h' : m.IsMinKey k') : k = k' := by
  obtain ⟨⟨x, hx⟩, hmin⟩ := h
  obtain ⟨⟨x', hx'⟩, hmin'⟩ := h'
  exact le_antisymm (hmin _ hx') (hmin' _ hx)

theorem values_of_begin? {m : Multimap κ ν} {e : κ × ν}
    (h : m.begin? = some e) : m.values = e.2 :: m.eraseBegin.values := by
  cases hm : m.entries with
  | nil => simp [begin?, hm] at h
  | cons b l =>
      have hb : b = e := by simpa [begin?, hm] using h
      simp [values, eraseBegin, hm, hb]

theorem entries_of_begin? {m : Multimap κ ν} {e : κ × ν}
    (h : m.begin? = some e) : m.entries = e :: m.eraseBegin.entries := by
  cases hm : m.entries with
  | nil => simp [begin?, hm] at h
  | cons b l =>
      have hb : b = e := by simpa [begin?, hm] using h
      simp [eraseBegin, hm, hb]

theorem mem_of_mem_eraseBegin {m : Multimap κ ν} {e : κ × ν}
    (h : e ∈ m.eraseBegin.entries) : e ∈ m.entries :=
  List.mem_of_mem_tail h

theorem mem_of_mem_eraseFirst {m : Multimap κ ν} {p : ν → Bool} {e : κ × ν}
    (h : e ∈ (m.eraseFirst p).entries) : e ∈ m.entries :=
  List.mem_of_mem_eraseP h

theorem values_eraseFirst [DecidableEq ν] (m : Multimap κ ν) (x : ν) :
    (m.eraseFirst (· == x)).values = m.values.erase x := by
  obtain ⟨l, hl⟩ := m
  simp only [eraseFirst, values]
  clear hl
  induction l with
  | nil => rfl
  | cons b l ih =>
      by_cases hb : b.2 = x
      · simp [hb]
      · simp [hb, ih]

end Multimap
