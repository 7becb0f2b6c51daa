import Sihd.Lib.EditDistance
import Sihd.Lib.OrderedMap
import Sihd.Util.Str

/-!
# Searching for similar words

`levenshtein_distance` keeps one row of distances, from all the beginnings of the
source to one beginning of the target, and goes on to the next row with the next
character of the target. When the source is the longer string it is taken for the
target, with the costs exchanged. `search` sorts the words by their distance.
-/

namespace Sihd.Util.Str

/-- `std::tolower` in the locale "C". -/
def toLower (c : UInt8) : UInt8 := if 65 ≤ c && c ≤ 90 then c + 32 else c

/-- The characters as they are compared. -/
def compareKey (asciiCaseInsensitive : Bool) (c : UInt8) : UInt8 :=
  if asciiCaseInsensitive then toLower c else c

variable {α : Type*} [DecidableEq α]

/-- The row before the first character of the target, from the distance `first` on. -/
def firstRow (C : EditCost) (first : Nat) : List α → List Nat
  | [] => [first]
  | _ :: source => first :: firstRow C (first + C.delete) source

/-- The rest of the row of the target character `d`: `left` is the distance just
computed, `previousDiagonal` the one before it in the last row. -/
def restOfRow (C : EditCost) (d : α) : (source : List α) → (left previousDiagonal : Nat) →
    (row : List Nat) → List Nat
  | c :: source, left, previousDiagonal, save :: row =>
      let distance :=
        if c = d then previousDiagonal
        else min (min (left + C.delete) (save + C.insert)) (previousDiagonal + C.replace)
      distance :: restOfRow C d source distance save row
  | _, _, _, _ => []

def nextRow (C : EditCost) (source : List α) (row : List Nat) (d : α) : List Nat :=
  match row with
  | [] => []
  | first :: row => (first + C.insert) :: restOfRow C d source (first + C.insert) first row

/-- The last distance of the last row. -/
def lastOfRows (C : EditCost) (source target : List α) : Nat :=
  (target.foldl (nextRow C source) (firstRow C 0 source)).getLastD 0

def levenshteinDistance (source target : List UInt8) (C : EditCost)
    (asciiCaseInsensitive : Bool) : Nat :=
  let key := compareKey asciiCaseInsensitive
  if source.length > target.length then lastOfRows C.swap (target.map key) (source.map key)
  else lastOfRows C (source.map key) (target.map key)

structure SearchResult where
  distance : Nat
  word : List UInt8
  deriving DecidableEq

/-- The comparison that the results are sorted with. -/
def SearchResult.before (a b : SearchResult) : Bool :=
  if a.distance ≠ b.distance then a.distance < b.distance else a.word < b.word

/-- The costs of `search`. -/
def searchCost : EditCost := ⟨3, 4, 2⟩

def search (words : List (List UInt8)) (selection : List UInt8) : List SearchResult :=
  (words.map fun word => ⟨levenshteinDistance word selection searchCost true, word⟩).mergeSort
    fun a b => !b.before a

/-! ## The rows -/

variable {C : EditCost}

/-- The distances from the beginnings of the source to the target, which are
reversed: `start` is the beginning that comes before `source`. -/
def distances (C : EditCost) (start : List α) (target : List α) : List α → List Nat
  | [] => [editDistance C start target]
  | c :: source => editDistance C start target :: distances C (c :: start) target source

theorem firstRow_eq (start source : List α) :
    firstRow C (start.length * C.delete) source = distances C start [] source := by
  induction source generalizing start with
  | nil => rw [firstRow, distances, editDistance_nil_right]
  | cons c source ih =>
    rw [firstRow, distances, editDistance_nil_right, ← ih, List.length_cons, Nat.succ_mul]

/-- The first distance of a row is that of the beginning alone. -/
theorem distances_eq_cons (start target source : List α) :
    distances C start target source =
      editDistance C start target :: (distances C start target source).tail := by
  cases source <;> rfl

theorem restOfRow_eq (d : α) (start target source : List α) :
    restOfRow C d source (editDistance C start (d :: target)) (editDistance C start target)
        (distances C start target source).tail =
      (distances C start (d :: target) source).tail := by
  induction source generalizing start with
  | nil => rfl
  | cons c source ih =>
    have hdistance : editDistance C (c :: start) (d :: target) =
        if c = d then editDistance C start target
        else min (min (editDistance C start (d :: target) + C.delete)
          (editDistance C (c :: start) target + C.insert))
          (editDistance C start target + C.replace) := by
      rw [editDistance]
    rw [distances, distances, List.tail_cons, List.tail_cons,
      distances_eq_cons (c :: start) target, distances_eq_cons (c :: start) (d :: target), ← ih,
      restOfRow, ← hdistance]

theorem nextRow_eq (d : α) (target source : List α) :
    nextRow C source (distances C [] target source) d = distances C [] (d :: target) source := by
  have hfirst : editDistance C [] target + C.insert = editDistance C [] (d :: target) := by
    rw [editDistance_nil, editDistance_nil, List.length_cons, Nat.succ_mul]
  rw [distances_eq_cons [] target, distances_eq_cons [] (d :: target), nextRow, hfirst,
    restOfRow_eq]

theorem foldl_nextRow (source target done : List α) :
    target.foldl (nextRow C source) (distances C [] done source) =
      distances C [] (target.reverse ++ done) source := by
  induction target generalizing done with
  | nil => rfl
  | cons d target ih =>
    rw [List.foldl_cons, nextRow_eq, ih, List.reverse_cons, List.append_assoc,
      List.singleton_append]

theorem getLastD_distances (start target source : List α) (n : Nat) :
    (distances C start target source).getLastD n =
      editDistance C (source.reverse ++ start) target := by
  induction source generalizing start n with
  | nil => rfl
  | cons c source ih =>
    rw [distances, List.getLastD_cons, ih, List.reverse_cons, List.append_assoc,
      List.singleton_append]

/-- The rows end with the distance of the whole strings. -/
theorem lastOfRows_eq (source target : List α) :
    lastOfRows C source target = editDistance C source target := by
  have hfirst : firstRow C 0 source = distances C [] [] source := by
    rw [← firstRow_eq, List.length_nil, Nat.zero_mul]
  rw [lastOfRows, hfirst, foldl_nextRow, getLastD_distances, List.append_nil, List.append_nil,
    editDistance_reverse]

theorem levenshteinDistance_eq (source target : List UInt8) (C : EditCost) (insensitive : Bool) :
    levenshteinDistance source target C insensitive =
      editDistance C (source.map (compareKey insensitive))
        (target.map (compareKey insensitive)) := by
  rw [levenshteinDistance]
  split_ifs
  · rw [lastOfRows_eq, editDistance_swap]
  · rw [lastOfRows_eq]

/-- `paydays` and `day`, whatever the case: the source is the longer string. -/
example : levenshteinDistance [112, 97, 121, 100, 97, 121, 115] [68, 65, 89] searchCost true =
    16 := by
  decide +kernel

/-! ## The results -/

/-- Sorted by the distance and then by the word. -/
def SearchResult.Le (a b : SearchResult) : Prop :=
  a.distance < b.distance ∨ a.distance = b.distance ∧ a.word ≤ b.word

/-- The least cost of the scripts that turn a word into a string that is the
selection but for the case of its letters. -/
def IsLeastCost (selection : List UInt8) (r : SearchResult) : Prop :=
  IsLeast {n | ∃ t, EditScript searchCost r.word n t ∧ t.map toLower = selection.map toLower}
    r.distance

theorem not_before_iff (a b : SearchResult) : (!b.before a) = true ↔ a.Le b := by
  rw [Bool.not_eq_true', SearchResult.before, SearchResult.Le]
  by_cases heq : b.distance = a.distance
  · have hword : ¬ b.word < a.word ↔ a.word ≤ b.word := not_lt
    rw [if_neg (not_not.mpr heq), decide_eq_false_iff_not, hword, heq]
    simp
  · rw [if_pos heq, decide_eq_false_iff_not]
    omega

theorem SearchResult.Le.trans {a b c : SearchResult} (hab : a.Le b) (hbc : b.Le c) : a.Le c := by
  obtain hab | ⟨hab, hword⟩ := hab
  · obtain hbc | ⟨hbc, -⟩ := hbc
    · exact .inl (hab.trans hbc)
    · exact .inl (hbc ▸ hab)
  · obtain hbc | ⟨hbc, hword'⟩ := hbc
    · exact .inl (hab ▸ hbc)
    · exact .inr ⟨hab.trans hbc, hword.trans hword'⟩

theorem SearchResult.Le.total (a b : SearchResult) : a.Le b ∨ b.Le a := by
  obtain hlt | heq | hlt := Nat.lt_trichotomy a.distance b.distance
  · exact .inl (.inl hlt)
  · obtain hword | hword := le_total a.word b.word
    · exact .inl (.inr ⟨heq, hword⟩)
    · exact .inr (.inr ⟨heq.symm, hword⟩)
  · exact .inr (.inl hlt)

/-- The results are the words with their least costs, in order. -/
theorem search_spec (words : List (List UInt8)) (selection : List UInt8) :
    ((search words selection).map SearchResult.word).Perm words ∧
      (∀ r ∈ search words selection, IsLeastCost selection r) ∧
      (search words selection).Pairwise SearchResult.Le := by
  refine ⟨?_, fun r hr => ?_, ?_⟩
  · have hwords : (words.map fun word => (⟨levenshteinDistance word selection searchCost true,
        word⟩ : SearchResult)).map SearchResult.word = words := by
      rw [List.map_map]
      exact List.map_id words
    rw [search]
    exact ((List.mergeSort_perm _ _).map SearchResult.word).trans (.of_eq hwords)
  · rw [search, List.mem_mergeSort, List.mem_map] at hr
    obtain ⟨word, -, rfl⟩ := hr
    rw [IsLeastCost, levenshteinDistance_eq]
    exact isLeast_editDistance toLower word selection
  · have hsorted : (search words selection).Pairwise fun a b => (!b.before a) = true := by
      refine List.pairwise_mergeSort (fun a b c hab hbc => ?_) (fun a b => ?_) _
      · rw [not_before_iff] at hab hbc ⊢
        exact hab.trans hbc
      · rw [Bool.or_eq_true, not_before_iff, not_before_iff]
        exact SearchResult.Le.total a b
    exact hsorted.imp fun h => (not_before_iff _ _).mp h

end Sihd.Util.Str
