import Mathlib.Data.List.ReduceOption
import Mathlib.Data.Set.Card

/-!
# Tables of slots

A table is a list of slots, each free or with a key and a value. It represents
the map of its entries when no key has two slots. A slot may be written, freed
or appended; what the table represents changes at one key at most.
-/

namespace SlotTable

variable {κ ν : Type*}

structure Represents (l : List (Option (κ × ν))) (m : κ → Option ν) : Prop where
  nodup : (l.reduceOption.map Prod.fst).Nodup
  mem_iff : ∀ k v, some (k, v) ∈ l ↔ m k = some v

variable {l l₁ l₂ : List (Option (κ × ν))} {m : κ → Option ν} {k : κ} {v : ν}

theorem represents_nil : Represents ([] : List (Option (κ × ν))) fun _ => none where
  nodup := List.nodup_nil
  mem_iff := fun k v => by simp

theorem represents_replicate (n : Nat) :
    Represents (List.replicate n (none : Option (κ × ν))) fun _ => none where
  nodup := by
    rw [List.reduceOption_replicate_none]
    exact List.nodup_nil
  mem_iff := fun k v => by simp [List.mem_replicate]

/-- A free slot more represents the same map. -/
theorem Represents.extend (h : Represents l m) : Represents (l ++ [none]) m where
  nodup := by
    rw [List.reduceOption_append, List.reduceOption_cons_of_none, List.reduceOption_nil,
      List.append_nil]
    exact h.nodup
  mem_iff := fun k v => by
    rw [← h.mem_iff k v]
    simp

/-- The keys of the slots that are not free. -/
def keys (l : List (Option (κ × ν))) : List κ := l.reduceOption.map Prod.fst

theorem keys_append_cons (l₁ l₂ : List (Option (κ × ν))) (o : Option (κ × ν)) :
    keys (l₁ ++ o :: l₂) = keys l₁ ++ (o.toList.map Prod.fst ++ keys l₂) := by
  cases o with
  | none => simp [keys, List.reduceOption_append, List.reduceOption_cons_of_none]
  | some e => simp [keys, List.reduceOption_append, List.reduceOption_cons_of_some]

theorem mem_keys_iff (h : Represents l m) : k ∈ keys l ↔ (m k).isSome := by
  rw [keys, List.mem_map, Option.isSome_iff_exists]
  constructor
  · rintro ⟨⟨k', v⟩, hmem, rfl⟩
    exact ⟨v, (h.mem_iff k' v).mp (List.reduceOption_mem_iff.mp hmem)⟩
  · rintro ⟨v, hv⟩
    exact ⟨(k, v), List.reduceOption_mem_iff.mpr ((h.mem_iff k v).mpr hv), rfl⟩

theorem mem_keys_of_mem (h : some (k, v) ∈ l) : k ∈ keys l :=
  List.mem_map_of_mem (List.reduceOption_mem_iff.mpr h)

variable [DecidableEq κ]

/-- A slot that is freed or has the key, written with another entry of the key
or none. -/
theorem Represents.replace {o : Option (κ × ν)} (h : Represents (l₁ ++ o :: l₂) m)
    (hkey : ∀ e ∈ o, e.1 = k) (hnone : o = none → m k = none) (v : Option ν) :
    Represents (l₁ ++ v.map (fun v => (k, v)) :: l₂) (Function.update m k v) := by
  have hnodup : k ∉ keys l₁ ++ keys l₂ ∧ (keys l₁ ++ keys l₂).Nodup := by
    have hold : (keys l₁ ++ (o.toList.map Prod.fst ++ keys l₂)).Nodup :=
      keys_append_cons l₁ l₂ o ▸ h.nodup
    cases o with
    | none =>
      refine ⟨fun hk => ?_, hold⟩
      have hsome : k ∈ keys (l₁ ++ none :: l₂) := by
        rw [keys_append_cons]
        exact hk
      rw [mem_keys_iff h, hnone rfl] at hsome
      cases hsome
    | some e =>
      obtain rfl : e.1 = k := hkey e rfl
      exact List.nodup_cons.mp (List.nodup_middle.mp hold)
  have hmem : ∀ (o : Option (κ × ν)) e, some e ∈ l₁ ++ o :: l₂ ↔ o = some e ∨ some e ∈ l₁ ++ l₂ :=
    fun o e => by
      simp only [List.mem_append, List.mem_cons, eq_comm (a := some e)]
      tauto
  refine ⟨?_, fun k' v' => ?_⟩
  · change (keys _).Nodup
    rw [keys_append_cons]
    cases v with
    | none => exact hnodup.2
    | some v => exact List.nodup_middle.mpr (List.nodup_cons.mpr hnodup)
  · rw [hmem]
    by_cases hk : k' = k
    · subst hk
      have hout : some (k', v') ∉ l₁ ++ l₂ := fun hin => hnodup.1 (by
        rcases List.mem_append.mp hin with hin | hin
        · exact List.mem_append_left _ (mem_keys_of_mem hin)
        · exact List.mem_append_right _ (mem_keys_of_mem hin))
      rw [Function.update_self, or_iff_left hout]
      cases v <;> simp
    · have hne : o ≠ some (k', v') := fun heq => hk (hkey _ heq)
      have hnew : v.map (fun v => (k, v)) ≠ some (k', v') := by
        cases v <;> simp [Ne.symm hk]
      rw [Function.update_of_ne hk, ← h.mem_iff k' v', hmem, or_iff_right hne, or_iff_right hnew]

theorem Represents.setOf_eq (h : Represents l m) (p : ν → Bool) :
    {k | ∃ v, m k = some v ∧ p v = true} =
      (((l.reduceOption.filter fun e => p e.2).map Prod.fst).toFinset : Set κ) := by
  ext k
  simp only [Set.mem_ofPred_eq, List.coe_toFinset, List.mem_map, List.mem_filter,
    List.reduceOption_mem_iff]
  constructor
  · rintro ⟨v, hv, hp⟩
    exact ⟨(k, v), ⟨(h.mem_iff k v).mpr hv, hp⟩, rfl⟩
  · rintro ⟨⟨k, v⟩, ⟨hmem, hp⟩, rfl⟩
    exact ⟨v, (h.mem_iff k v).mp hmem, hp⟩

theorem Represents.finite (h : Represents l m) (p : ν → Bool) :
    {k | ∃ v, m k = some v ∧ p v = true}.Finite := by
  rw [h.setOf_eq p]
  exact Finset.finite_toSet _

/-- The number of keys with a value of a kind is the number of such slots. -/
theorem Represents.ncard (h : Represents l m) (p : ν → Bool) :
    Set.ncard {k | ∃ v, m k = some v ∧ p v = true} =
      l.countP fun o => o.any fun e => p e.2 := by
  have hnodup : ((l.reduceOption.filter fun e => p e.2).map Prod.fst).Nodup :=
    h.nodup.sublist (List.filter_sublist.map _)
  rw [h.setOf_eq p, Set.ncard_coe_finset, List.toFinset_card_of_nodup hnodup, List.length_map,
    ← List.countP_eq_length_filter]
  clear hnodup h
  induction l with
  | nil => rfl
  | cons o l ih =>
    cases o with
    | none =>
      rw [List.reduceOption_cons_of_none, ih, List.countP_cons_of_neg]
      simp
    | some e =>
      rw [List.reduceOption_cons_of_some, List.countP_cons, List.countP_cons, ih]
      rfl

end SlotTable
