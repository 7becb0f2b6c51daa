import Mathlib.Data.List.Sort
import Mathlib.Order.Lattice

/-!
# The first of a stable sort

`IsFirstLeast key p l a` says that `a` is, of the elements of `l` with `p`, one
with the least key, and the first of these. It is what a stable sort by the keys
has first, whatever the order of elements with different keys was.
-/

variable {α β : Type*} [LinearOrder β]

/-- No element with `p` has a lesser key, and none before has the same. -/
def IsFirstLeast (key : α → β) (p : α → Prop) (l : List α) (a : α) : Prop :=
  ∃ before after, l = before ++ a :: after ∧ p a ∧ (∀ b ∈ before, p b → key a < key b) ∧
    ∀ b ∈ after, p b → key a ≤ key b

namespace IsFirstLeast

variable {key : α → β} {p q : α → Prop} {l l' : List α} {a b : α}

theorem mem (h : IsFirstLeast key p l a) : a ∈ l := by
  obtain ⟨before, after, rfl, -, -, -⟩ := h
  exact List.mem_append_right _ List.mem_cons_self

theorem holds (h : IsFirstLeast key p l a) : p a := by
  obtain ⟨before, after, -, ha, -, -⟩ := h
  exact ha

theorem le_of_mem (h : IsFirstLeast key p l a) : ∀ b ∈ l, p b → key a ≤ key b := by
  obtain ⟨before, after, rfl, -, hbefore, hafter⟩ := h
  refine List.forall_mem_append.mpr ⟨fun b hb hp => (hbefore b hb hp).le, ?_⟩
  exact List.forall_mem_cons.mpr ⟨fun _ => le_rfl, hafter⟩

theorem eq (ha : IsFirstLeast key p l a) (hb : IsFirstLeast key p l b) : a = b := by
  have hab := ha.le_of_mem b hb.mem hb.holds
  have hba := hb.le_of_mem a ha.mem ha.holds
  obtain ⟨before, after, rfl, hpa, hbefore, -⟩ := ha
  obtain ⟨before', after', heq, hpb, hbefore', -⟩ := hb
  -- the one that comes later has the other before it
  rcases List.append_eq_append_iff.mp heq with ⟨c, hc, hcons⟩ | ⟨c, hc, hcons⟩
  · cases c with
    | nil => exact (List.cons.inj hcons).1
    | cons x c =>
      obtain ⟨rfl, -⟩ := List.cons.inj hcons
      refine absurd (hbefore' a ?_ hpa) hab.not_gt
      rw [hc]
      exact List.mem_append_right _ List.mem_cons_self
  · cases c with
    | nil => exact (List.cons.inj hcons).1.symm
    | cons x c =>
      obtain ⟨rfl, -⟩ := List.cons.inj hcons
      refine absurd (hbefore b ?_ hpb) hba.not_gt
      rw [hc]
      exact List.mem_append_right _ List.mem_cons_self

/-- The keys decide when they are different. -/
theorem of_perm (h : IsFirstLeast key p l a) (hperm : l.Perm l')
    (hkeys : l.Pairwise fun a b => key a ≠ key b) : IsFirstLeast key p l' a := by
  have hle : ∀ b ∈ l', p b → key a ≤ key b :=
    fun b hb => h.le_of_mem b (hperm.mem_iff.mpr hb)
  obtain ⟨before, after, rfl⟩ := List.append_of_mem (hperm.mem_iff.mp h.mem)
  have hpairwise := hperm.pairwise hkeys fun hne => hne.symm
  rw [List.forall_mem_append, List.forall_mem_cons] at hle
  refine ⟨before, after, rfl, h.holds, fun b hb hp => ?_, hle.2.2⟩
  have hne := (List.pairwise_append.mp hpairwise).2.2 b hb a List.mem_cons_self
  exact lt_of_le_of_ne (hle.1 b hb hp) hne.symm

theorem of_filter {r : α → Bool} (h : IsFirstLeast key p (l.filter r) a) :
    IsFirstLeast key (fun b => r b = true ∧ p b) l a := by
  obtain ⟨before, after, heq, hpa, hbefore, hafter⟩ := h
  obtain ⟨l₁, l₂, rfl, rfl, hl₂⟩ := List.filter_eq_append_iff.mp heq
  obtain ⟨l₃, l₄, rfl, hl₃, hra, rfl⟩ := List.filter_eq_cons_iff.mp hl₂
  refine ⟨l₁ ++ l₃, l₄, (List.append_assoc _ _ _).symm, ⟨hra, hpa⟩, ?_, ?_⟩
  · refine List.forall_mem_append.mpr ⟨fun b hb hp => ?_, fun b hb hp => ?_⟩
    · exact hbefore b (List.mem_filter.mpr ⟨hb, hp.1⟩) hp.2
    · exact absurd hp.1 (hl₃ b hb)
  · exact fun b hb hp => hafter b (List.mem_filter.mpr ⟨hb, hp.1⟩) hp.2

/-- Other keys, in the same order on the elements that count. -/
theorem of_keys {γ : Type*} [LinearOrder γ] {key' : α → γ} (h : IsFirstLeast key p l a)
    (hp : ∀ b ∈ l, q b ↔ p b) (hlt : ∀ b, p b → key a < key b → key' a < key' b)
    (hle : ∀ b, p b → key a ≤ key b → key' a ≤ key' b) : IsFirstLeast key' q l a := by
  obtain ⟨before, after, rfl, hpa, hbefore, hafter⟩ := h
  rw [List.forall_mem_append, List.forall_mem_cons] at hp
  refine ⟨before, after, rfl, hp.2.1.mpr hpa, fun b hb hq => ?_, fun b hb hq => ?_⟩
  · have hpb := (hp.1 b hb).mp hq
    exact hlt b hpb (hbefore b hb hpb)
  · have hpb := (hp.2.2 b hb).mp hq
    exact hle b hpb (hafter b hb hpb)

end IsFirstLeast

theorem isFirstLeast_of_find?_mergeSort {key : α → β} {p : α → Bool} {l : List α} {a : α}
    (h : (l.mergeSort fun a b => decide (key a ≤ key b)).find? p = some a) :
    IsFirstLeast key (fun b => p b = true) l a := by
  have htrans : ∀ a b c : α, decide (key a ≤ key b) = true → decide (key b ≤ key c) = true →
      decide (key a ≤ key c) = true := by
    simpa using fun a b c => le_trans
  have htotal : ∀ a b : α, (decide (key a ≤ key b) || decide (key b ≤ key a)) = true := by
    simpa using fun a b => le_total (key a) (key b)
  induction l generalizing a with
  | nil => simp at h
  | cons x l ih =>
    obtain ⟨l₁, l₂, hcons, hl, hbefore⟩ := List.mergeSort_cons htrans htotal x l
    have hsorted := List.pairwise_mergeSort htrans htotal (x :: l)
    have hmem : ∀ b, b ∈ l ↔ b ∈ l₁ ++ l₂ := by
      intro b
      rw [← hl, List.mem_mergeSort]
    rw [hl] at ih
    rw [hcons] at h hsorted
    rw [List.find?_append] at h ih
    cases hfind : l₁.find? p with
    -- an element with a lesser key comes first
    | some c =>
      rw [hfind, Option.some_or, Option.some_inj] at h
      subst h
      rw [hfind, Option.some_or] at ih
      obtain ⟨before, after, rfl, ha, hb, hafter⟩ := ih rfl
      refine ⟨x :: before, after, rfl, ha, List.forall_mem_cons.mpr ⟨fun _ => ?_, hb⟩, hafter⟩
      simpa using hbefore c (List.mem_of_find?_eq_some hfind)
    | none =>
      rw [hfind, Option.none_or] at h ih
      by_cases hx : p x
      · rw [List.find?_cons_of_pos hx, Option.some_inj] at h
        subst h
        refine ⟨[], l, rfl, hx, List.forall_mem_nil _, fun b hb hp => ?_⟩
        rcases List.mem_append.mp ((hmem b).mp hb) with hb | hb
        · exact absurd hp (List.find?_eq_none.mp hfind b hb)
        · have hrest := (List.pairwise_append.mp hsorted).2.1
          simpa using (List.pairwise_cons.mp hrest).1 b hb
      · rw [List.find?_cons_of_neg hx] at h
        obtain ⟨before, after, rfl, ha, hb, hafter⟩ := ih h
        exact ⟨x :: before, after, rfl, ha,
          List.forall_mem_cons.mpr ⟨fun hp => absurd hp hx, hb⟩, hafter⟩
