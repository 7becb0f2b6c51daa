import Mathlib.Algebra.GroupWithZero.Nat
import Mathlib.Data.List.Basic
import Mathlib.Data.List.Infix
import Mathlib.Data.List.Intervals
import Mathlib.Tactic.Common

/-!
# Cutting a list with a scanner

A `Scanner` goes through a list with a state and decides at each element
whether the list is cut there; the element of a cut is dropped. `pieces` are
the lists between the cuts.

A list that was joined with a separator is cut into the lists it was joined
from exactly when the scanner cuts at the separators that were put between them
(`pieces_intercalate_iff`). Lists that are changed before they are joined and
changed back after the cut are only found again in this way, when both changes
keep the number of separators (`pieces_eq_of_map_eq`).
-/

/-- The elements of a list with what comes before and after them, by index. -/
theorem forall_eq_append_iff {α : Type*} {c : α} {s : List α} {P : List α → List α → Prop} :
    (∀ x y, s = x ++ c :: y → P x y) ↔
      ∀ i < s.length, s[i]? = some c → P (s.take i) (s.drop (i + 1)) := by
  constructor
  · intro h i hi hc
    refine h (s.take i) (s.drop (i + 1)) ?_
    rw [← (List.getElem?_eq_some_iff.mp hc).2, List.getElem_cons_drop, List.take_append_drop]
  · rintro h x y rfl
    have hx := h x.length (by simp) (by simp)
    rwa [List.take_left, ← List.drop_drop, List.drop_left, List.drop_one, List.tail_cons] at hx

structure Scanner (σ α : Type*) where
  step : σ → α → σ
  cut : σ → α → Bool

namespace Scanner

variable {σ τ α : Type*} (S : Scanner σ α) (T : Scanner τ α)

/-- The state after a list. -/
def run (s : σ) (l : List α) : σ := l.foldl S.step s

def pieces : σ → List α → List (List α)
  | _, [] => [[]]
  | s, a :: l =>
      if S.cut s a then [] :: pieces (S.step s a) l
      else (pieces (S.step s a) l).modifyHead (List.cons a)

/-- The scanner does not cut the list. -/
def Uncut (s : σ) (l : List α) : Prop :=
  ∀ x a y, l = x ++ a :: y → S.cut (S.run s x) a = false

@[simp]
theorem run_nil (s : σ) : S.run s [] = s := rfl

@[simp]
theorem run_cons (s : σ) (a : α) (l : List α) : S.run s (a :: l) = S.run (S.step s a) l := rfl

theorem run_append (s : σ) (x y : List α) : S.run s (x ++ y) = S.run (S.run s x) y :=
  List.foldl_append

theorem uncut_nil (s : σ) : S.Uncut s [] := by
  intro x a y h
  simp at h

theorem uncut_cons {s : σ} {a : α} {l : List α} :
    S.Uncut s (a :: l) ↔ S.cut s a = false ∧ S.Uncut (S.step s a) l := by
  constructor
  · intro h
    exact ⟨h [] a l rfl, fun x b y hl => h (a :: x) b y (by rw [hl, List.cons_append])⟩
  · rintro ⟨ha, hl⟩ x b y h
    cases x with
    | nil =>
      cases h
      exact ha
    | cons c x =>
      obtain ⟨rfl, hx⟩ := List.cons.inj h
      exact hl x b y hx

theorem uncut_append {s : σ} {x y : List α} :
    S.Uncut s (x ++ y) ↔ S.Uncut s x ∧ S.Uncut (S.run s x) y := by
  induction x generalizing s with
  | nil => simp [uncut_nil]
  | cons a x ih => rw [List.cons_append, uncut_cons, uncut_cons, ih, run_cons, and_assoc]

theorem pieces_of_uncut {l : List α} : {s : σ} → S.Uncut s l → S.pieces s l = [l] := by
  induction l with
  | nil => exact fun _ => rfl
  | cons a l ih =>
    intro s h
    obtain ⟨ha, hl⟩ := S.uncut_cons.mp h
    rw [pieces, ha, if_neg (by simp), ih hl, List.modifyHead_cons]

/-- The first piece ends at the first cut. -/
theorem pieces_append {x : List α} {a : α} (y : List α) :
    {s : σ} → S.Uncut s x → S.cut (S.run s x) a = true →
      S.pieces s (x ++ a :: y) = x :: S.pieces (S.step (S.run s x) a) y := by
  induction x with
  | nil =>
    intro s _ ha
    rw [List.nil_append, pieces, if_pos (by simpa using ha), run_nil]
  | cons b x ih =>
    intro s h ha
    obtain ⟨hb, hx⟩ := S.uncut_cons.mp h
    rw [List.cons_append, pieces, hb, if_neg (by simp), ih hx ha, List.modifyHead_cons, run_cons]

theorem uncut_or_cut (s : σ) (l : List α) :
    S.Uncut s l ∨ ∃ x a y, l = x ++ a :: y ∧ S.Uncut s x ∧ S.cut (S.run s x) a = true := by
  induction l generalizing s with
  | nil => exact .inl (S.uncut_nil s)
  | cons a l ih =>
    cases ha : S.cut s a with
    | true => exact .inr ⟨[], a, l, rfl, S.uncut_nil s, ha⟩
    | false =>
      rcases ih (S.step s a) with hl | ⟨x, b, y, rfl, hx, hb⟩
      · exact .inl (S.uncut_cons.mpr ⟨ha, hl⟩)
      · exact .inr ⟨a :: x, b, y, rfl, S.uncut_cons.mpr ⟨ha, hx⟩, hb⟩

theorem pieces_ne_nil (s : σ) (l : List α) : S.pieces s l ≠ [] := by
  induction l generalizing s with
  | nil => simp [pieces]
  | cons a l ih =>
    rw [pieces]
    split
    · simp
    · simpa [List.modifyHead_eq_nil_iff] using ih (S.step s a)

section Separator

variable {sep : α}

/-- The scanner cuts at one element only. -/
def CutsAt (sep : α) : Prop := ∀ s a, S.cut s a = true → a = sep

/-- The scanner cuts the joined lists at the separators between them, and not
at the separators that they hold. -/
def CutsJoin (sep : α) (s : σ) (fs : List (List α)) : Prop :=
  ∀ x y, [sep].intercalate fs = x ++ sep :: y →
    (S.cut (S.run s x) sep = true ↔
      ∃ k, 0 < k ∧ k < fs.length ∧ x = [sep].intercalate (fs.take k))

variable {S}

theorem CutsAt.uncut_iff (hS : S.CutsAt sep) {s : σ} {l : List α} :
    S.Uncut s l ↔ ∀ x y, l = x ++ sep :: y → S.cut (S.run s x) sep = false := by
  constructor
  · exact fun h x y hl => h x sep y hl
  · intro h x a y hl
    cases ha : S.cut (S.run s x) a with
    | false => rfl
    | true =>
      cases hS _ _ ha
      exact ha.symm.trans (h x y hl)

theorem cutsJoin_singleton (hS : S.CutsAt sep) {s : σ} {f : List α} :
    S.CutsJoin sep s [f] ↔ S.Uncut s f := by
  rw [hS.uncut_iff, CutsJoin, List.intercalate_singleton]
  refine forall_congr' fun x => forall_congr' fun y => forall_congr' fun _ => ?_
  constructor
  · intro h
    cases hcut : S.cut (S.run s x) sep with
    | false => rfl
    | true =>
      obtain ⟨k, hpos, hlt, -⟩ := h.mp hcut
      rw [List.length_singleton] at hlt
      omega
  · intro h
    rw [h]
    refine iff_of_false (by simp) ?_
    rintro ⟨k, hpos, hlt, -⟩
    rw [List.length_singleton] at hlt
    omega

theorem intercalate_cons (f : List α) {fs : List (List α)} (hfs : fs ≠ []) :
    [sep].intercalate (f :: fs) = f ++ sep :: [sep].intercalate fs := by
  rw [List.intercalate_cons_of_ne_nil hfs, List.append_assoc, List.singleton_append]

/-- What is joined before one of the separators: the first list alone, or the
first list and more. -/
theorem intercalate_take_succ (f : List α) {fs : List (List α)} {k : Nat} (hpos : 0 < k)
    (hlt : k < fs.length) :
    [sep].intercalate ((f :: fs).take (k + 1)) = f ++ sep :: [sep].intercalate (fs.take k) := by
  rw [List.take_succ_cons, intercalate_cons f]
  rw [Ne, List.take_eq_nil_iff]
  rintro (h | rfl)
  · omega
  · simp at hlt

theorem exists_take_cons_iff {f z : List α} {fs : List (List α)} :
    (∃ k, 0 < k ∧ k < (f :: fs).length ∧
        f ++ sep :: z = [sep].intercalate ((f :: fs).take k)) ↔
      ∃ k, 0 < k ∧ k < fs.length ∧ z = [sep].intercalate (fs.take k) := by
  constructor
  · rintro ⟨k, hpos, hlt, hk⟩
    obtain ⟨k, rfl⟩ : ∃ k', k = k' + 1 := ⟨k - 1, by omega⟩
    rcases Nat.eq_zero_or_pos k with rfl | hk'
    · simp at hk
    · have hlt' : k < fs.length := by simpa using hlt
      rw [intercalate_take_succ f hk' hlt'] at hk
      exact ⟨k, hk', hlt', (List.cons.inj (List.append_cancel_left hk)).2⟩
  · rintro ⟨k, hpos, hlt, rfl⟩
    exact ⟨k + 1, by omega, by simpa using hlt, (intercalate_take_succ f hpos hlt).symm⟩

theorem not_exists_take_of_length_lt {f x : List α} {fs : List (List α)}
    (h : x.length < f.length) :
    ¬ ∃ k, 0 < k ∧ k < (f :: fs).length ∧ x = [sep].intercalate ((f :: fs).take k) := by
  rintro ⟨k, hpos, hlt, rfl⟩
  obtain ⟨k, rfl⟩ : ∃ k', k = k' + 1 := ⟨k - 1, by omega⟩
  rcases Nat.eq_zero_or_pos k with rfl | hk'
  · simp at h
  · rw [intercalate_take_succ f hk' (by simpa using hlt), List.length_append] at h
    omega

theorem cutsJoin_cons (hS : S.CutsAt sep) {s : σ} {f : List α} {fs : List (List α)}
    (hfs : fs ≠ []) :
    S.CutsJoin sep s (f :: fs) ↔
      S.Uncut s f ∧ S.cut (S.run s f) sep = true ∧
        S.CutsJoin sep (S.step (S.run s f) sep) fs := by
  have hjoin := @intercalate_cons α sep f fs hfs
  have hlen : 0 < fs.length := List.length_pos_of_ne_nil hfs
  have hfirst : ∃ k, 0 < k ∧ k < (f :: fs).length ∧
      f = [sep].intercalate ((f :: fs).take k) :=
    ⟨1, Nat.one_pos, by simpa using hlen, by simp⟩
  constructor
  · intro h
    refine ⟨hS.uncut_iff.mpr fun x y hf => ?_, (h f _ hjoin).mpr hfirst, fun x y hx => ?_⟩
    · have hiff := h x (y ++ sep :: [sep].intercalate fs) (by
        rw [hjoin, hf, List.append_assoc, List.cons_append])
      simpa using hiff.not.mpr (not_exists_take_of_length_lt (by simp [hf]))
    · have hiff := h (f ++ sep :: x) y (by
        rw [hjoin, hx, List.append_assoc, List.cons_append])
      rwa [run_append, run_cons, exists_take_cons_iff] at hiff
  · rintro ⟨huncut, hcut, hrest⟩ x y hx
    rw [hjoin] at hx
    rcases List.append_eq_append_iff.mp hx with ⟨z, rfl, hz⟩ | ⟨z, rfl, hz⟩
    · cases z with
      | nil =>
        rw [List.append_nil]
        exact iff_of_true hcut hfirst
      | cons b z =>
        obtain ⟨rfl, hz'⟩ := List.cons.inj hz
        rw [run_append, run_cons, exists_take_cons_iff]
        exact hrest z y hz'
    · cases z with
      | nil =>
        simp only [List.append_nil] at hcut hfirst ⊢
        exact iff_of_true hcut hfirst
      | cons b z =>
        obtain ⟨rfl, -⟩ := List.cons.inj hz
        rw [huncut x _ z rfl]
        exact iff_of_false (by simp) (not_exists_take_of_length_lt (by simp))

/-- The joined lists are found again when the scanner cuts at the separators
that were put between them. -/
theorem pieces_intercalate_iff (hS : S.CutsAt sep) {fs : List (List α)} (hfs : fs ≠ []) :
    {s : σ} → (S.pieces s ([sep].intercalate fs) = fs ↔ S.CutsJoin sep s fs) := by
  induction fs with
  | nil => exact absurd rfl hfs
  | cons f fs ih =>
    intro s
    cases fs with
    | nil =>
      rw [List.intercalate_singleton, cutsJoin_singleton hS]
      constructor
      · intro h
        rcases S.uncut_or_cut s f with huncut | ⟨x, a, y, rfl, hx, ha⟩
        · exact huncut
        · rw [S.pieces_append y hx ha] at h
          exact absurd (List.cons.inj h).2 (S.pieces_ne_nil _ y)
      · exact S.pieces_of_uncut
    | cons g fs =>
      have hne : g :: fs ≠ [] := List.cons_ne_nil g fs
      rw [cutsJoin_cons hS hne, intercalate_cons f hne, ← ih hne]
      constructor
      · intro h
        rcases S.uncut_or_cut s (f ++ sep :: [sep].intercalate (g :: fs)) with
          huncut | ⟨x, a, y, hxy, hx, ha⟩
        · rw [S.pieces_of_uncut huncut] at h
          exact absurd (List.cons.inj h).2.symm hne
        · rw [hxy, S.pieces_append y hx ha] at h
          obtain ⟨rfl, hrest⟩ := List.cons.inj h
          obtain ⟨rfl, rfl⟩ := List.cons.inj (List.append_cancel_left hxy)
          exact ⟨hx, ha, hrest⟩
      · rintro ⟨huncut, hcut, hrest⟩
        rw [S.pieces_append _ huncut hcut, hrest]

section Count

variable [DecidableEq α]

/-- Two lists that are followed by an element, in the same list, are the same
when they hold that element the same number of times. -/
theorem eq_of_count_eq {x p y z : List α} (h : p ++ sep :: y = x ++ sep :: z)
    (hcount : p.count sep = x.count sep) : p = x := by
  rcases List.append_eq_append_iff.mp h with ⟨w, rfl, hw⟩ | ⟨w, rfl, hw⟩
  · cases w with
    | nil => rw [List.append_nil]
    | cons b w =>
      obtain ⟨rfl, -⟩ := List.cons.inj hw
      rw [List.count_append, List.count_cons_self] at hcount
      omega
  · cases w with
    | nil => rw [List.append_nil]
    | cons b w =>
      obtain ⟨rfl, -⟩ := List.cons.inj hw
      rw [List.count_append, List.count_cons_self] at hcount
      omega

/-- The other elements are in the pieces. -/
theorem sum_count_pieces (hS : S.CutsAt sep) {a : α} (ha : a ≠ sep) (s : σ) (l : List α) :
    ((S.pieces s l).map (List.count a)).sum = l.count a := by
  induction l generalizing s with
  | nil => rfl
  | cons b l ih =>
    rw [pieces]
    split
    · rename_i hcut
      rw [List.map_cons, List.sum_cons, ih, List.count_nil, Nat.zero_add, hS _ _ hcut,
        List.count_cons_of_ne ha.symm]
    · have ih := ih (S.step s b)
      cases hpieces : S.pieces (S.step s b) l with
      | nil => exact absurd hpieces (S.pieces_ne_nil _ l)
      | cons p ps =>
        rw [hpieces, List.map_cons, List.sum_cons] at ih
        rw [List.modifyHead_cons, List.map_cons, List.sum_cons, List.count_cons, List.count_cons,
          ← ih]
        omega

theorem count_intercalate {a : α} (ha : a ≠ sep) (fs : List (List α)) :
    ([sep].intercalate fs).count a = (fs.map (List.count a)).sum := by
  induction fs with
  | nil => rfl
  | cons f fs ih =>
    cases fs with
    | nil => simp
    | cons g fs =>
      rw [intercalate_cons f (List.cons_ne_nil g fs), List.count_append,
        List.count_cons_of_ne ha.symm, ih]
      rfl

/-- Lists that were changed before they were joined, with the pieces changed
back: when the changes keep the number of separators, only the pieces that were
joined give the lists back. -/
theorem pieces_eq_of_map_eq (hS : S.CutsAt sep) {enc dec : List α → List α}
    (henc : ∀ f, (enc f).count sep = f.count sep) (hdec : ∀ p, (dec p).count sep = p.count sep)
    {fs : List (List α)} (hfs : fs ≠ []) :
    {s : σ} → (S.pieces s ([sep].intercalate (fs.map enc))).map dec = fs →
      S.pieces s ([sep].intercalate (fs.map enc)) = fs.map enc := by
  induction fs with
  | nil => exact absurd rfl hfs
  | cons f fs ih =>
    intro s h
    have hcount {p : List α} (hp : dec p = f) : p.count sep = (enc f).count sep := by
      rw [← hdec, hp, henc]
    cases fs with
    | nil =>
      rw [List.map_singleton, List.intercalate_singleton] at h ⊢
      rcases S.uncut_or_cut s (enc f) with huncut | ⟨x, a, y, hf, hx, ha⟩
      · exact S.pieces_of_uncut huncut
      · rw [hf, S.pieces_append y hx ha, List.map_cons] at h
        exact absurd (List.map_eq_nil_iff.mp (List.cons.inj h).2) (S.pieces_ne_nil _ y)
    | cons g fs =>
      have hne : (g :: fs).map enc ≠ [] := by simp
      rw [List.map_cons, intercalate_cons _ hne] at h ⊢
      rcases S.uncut_or_cut s (enc f ++ sep :: [sep].intercalate ((g :: fs).map enc)) with
        huncut | ⟨x, a, y, hxy, hx, ha⟩
      · rw [S.pieces_of_uncut huncut] at h
        exact absurd (List.cons.inj h).2.symm (List.cons_ne_nil g fs)
      · cases hS _ _ ha
        rw [hxy, S.pieces_append y hx ha] at h ⊢
        obtain ⟨hxf, hrest⟩ := List.cons.inj h
        obtain rfl : x = enc f := eq_of_count_eq hxy.symm (hcount hxf)
        obtain ⟨-, rfl⟩ := List.cons.inj (List.append_cancel_left hxy)
        rw [ih (List.cons_ne_nil g fs) hrest]

end Count

end Separator

end Scanner
