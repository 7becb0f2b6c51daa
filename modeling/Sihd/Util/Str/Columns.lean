import Mathlib.Algebra.Order.Floor.Div
import Mathlib.Data.List.Range
import Sihd.Lib.Rounding
import Sihd.Util.Str

/-!
# Words in columns

`to_columns` tries one line, then two and so on, until the columns fit: with `m`
lines there are `m` words in each column but the last. The sizes of the columns
are kept in one array, over all the tries. How many columns there are is computed
with a `float`.
-/

namespace Sihd.Util.Str

/-- A number as a `float`, which has 24 significant bits. -/
def toFloat (x : ℚ) : ℚ := roundBits 24 x

/-- `std::ceil(nbWords / (float)lines)`. -/
def nbColumns (nbWords lines : Nat) : Nat :=
  ⌈toFloat (toFloat nbWords / toFloat lines)⌉₊

variable (words : List (List UInt8)) (maxWidth : Nat) (join : List UInt8)

/-- The size of the biggest word of a column. -/
def biggestWord (lines column : Nat) : Nat :=
  ((words.drop (lines * column)).take lines).foldl (fun size word => max size word.length) 0

/-- What a try leaves: whether the columns fit, and the sizes of the columns. -/
structure Try where
  good : Bool
  columnSize : List Nat

/-- The loop over the columns of a try, from `column` on. -/
def tryColumns (lines : Nat) : (left column lineSize : Nat) → List Nat → Try
  | 0, _, _, columnSize => ⟨true, columnSize⟩
  | left + 1, column, lineSize, columnSize =>
      let biggest := biggestWord words lines column
      let lineSize := lineSize + biggest + if column > 0 then join.length else 0
      if lineSize > maxWidth then ⟨false, columnSize⟩
      else tryColumns lines left (column + 1) lineSize (columnSize.set column biggest)

/-- The loop over the numbers of lines, from `lineIndex` on. -/
def selectLines : (left lineIndex : Nat) → List Nat → Option (Nat × List Nat)
  | 0, _, _ => none
  | left + 1, lineIndex, columnSize =>
      let tried := tryColumns words maxWidth join lineIndex (nbColumns words.length lineIndex) 0 0
        columnSize
      if tried.good then some (lineIndex, tried.columnSize)
      else selectLines left (lineIndex + 1) tried.columnSize

/-- `{0:<{1}}`. -/
def pad (word : List UInt8) (size : Nat) : List UInt8 :=
  word ++ List.replicate (size - word.length) 32

/-- The loop over the columns of a line, from `column` on. -/
def renderLine (columnSize : List Nat) (lines line : Nat) : (left column : Nat) → List UInt8
  | 0, _ => []
  | left + 1, column =>
      match words[lines * column + line]? with
      | none => []
      | some word =>
          (if column > 0 then join else []) ++ pad word (columnSize.getD column 0) ++
            renderLine columnSize lines line left (column + 1)

def toColumns : List (List UInt8) :=
  if words = [] then []
  else
    match selectLines words maxWidth join words.length 1 (List.replicate words.length 0) with
    | none => []
    | some (lines, columnSize) =>
        (List.range lines).map fun line =>
          renderLine words join columnSize lines line (nbColumns words.length lines) 0

/-! ## Layouts -/

/-- The columns of a layout: `lines` words in each one, the rest in the last one. -/
def columns (lines : Nat) : List (List (List UInt8)) :=
  (List.range (words.length ⌈/⌉ lines)).map fun column => (words.drop (lines * column)).take lines

/-- The words of each line. -/
def rows (lines : Nat) : List (List (List UInt8)) :=
  (List.range lines).map fun line => (columns words lines).filterMap (·[line]?)

def columnSizes (lines : Nat) : List Nat :=
  (columns words lines).map fun column => column.foldl (fun size word => max size word.length) 0

/-- The lines of words in columns. -/
def layout (lines : Nat) : List (List UInt8) :=
  (rows words lines).map fun row => join.intercalate (row.zipWith pad (columnSizes words lines))

/-- The words of the lines, one column after the other. -/
def readColumns (rows : List (List (List UInt8))) : List (List UInt8) :=
  (List.range (rows.headD []).length).flatMap fun column => rows.filterMap (·[column]?)

/-- The words are laid out: they are in columns, in their order, the lines are no
longer than the width, and in fewer lines some line would be longer. -/
structure LaysOut (result : List (List UInt8)) : Prop where
  eq_layout : result = layout words join result.length
  readColumns_eq : readColumns (rows words result.length) = words
  length_le : ∀ line ∈ result, line.length ≤ maxWidth
  minimal : ∀ lines, 0 < lines → lines < result.length →
    ∃ line ∈ layout words join lines, maxWidth < line.length

theorem nbColumns_eq {nbWords lines : Nat} (hlines : 0 < lines) (hle : lines ≤ nbWords)
    (hlt : nbWords < 2 ^ 24) : nbColumns nbWords lines = nbWords ⌈/⌉ lines := by
  have hlines' : (0 : ℚ) < lines := by exact_mod_cast hlines
  rw [nbColumns, toFloat, toFloat, toFloat, roundBits_natCast hlt,
    roundBits_natCast (hle.trans_lt hlt), ceil_roundBits_div hlines hle hlt]
  refine eq_of_forall_ge_iff fun k => ?_
  rw [Nat.ceil_le, div_le_iff₀ hlines', ceilDiv_le_iff_le_mul hlines, mul_comm lines]
  exact_mod_cast Iff.rfl

variable {words join} {maxWidth} {lines line : Nat} {columnSize : List Nat}

/-- The width of a line with its first `k` columns. -/
def lineWidth (words : List (List UInt8)) (join : List UInt8) (lines : Nat) : Nat → Nat
  | 0 => 0
  | k + 1 => lineWidth words join lines k + biggestWord words lines k +
      if k > 0 then join.length else 0

theorem lineWidth_mono : Monotone (lineWidth words join lines) :=
  monotone_nat_of_le_succ fun k => by
    rw [lineWidth]
    omega

/-- A try is good when the columns fit, and then it has their sizes. -/
theorem tryColumns_spec : ∀ (left column : Nat) (columnSize : List Nat),
    column + left ≤ columnSize.length →
    (∀ c < column, columnSize.getD c 0 = biggestWord words lines c) →
    lineWidth words join lines column ≤ maxWidth →
    let tried := tryColumns words maxWidth join lines left column
      (lineWidth words join lines column) columnSize
    tried.columnSize.length = columnSize.length ∧
      (tried.good = true ↔ lineWidth words join lines (column + left) ≤ maxWidth) ∧
      (tried.good = true →
        ∀ c < column + left, tried.columnSize.getD c 0 = biggestWord words lines c)
  | 0, column, columnSize, _, hsizes, hfits => ⟨rfl, iff_of_true rfl hfits, fun _ => hsizes⟩
  | left + 1, column, columnSize, hlen, hsizes, hfits => by
      have hwidth : lineWidth words join lines column + biggestWord words lines column +
          (if column > 0 then join.length else 0) = lineWidth words join lines (column + 1) := rfl
      have hadd : column + (left + 1) = column + 1 + left := by omega
      dsimp only
      rw [tryColumns, hwidth, hadd]
      split_ifs with hbig
      · have hmono := @lineWidth_mono words join lines _ _ (Nat.le_add_right (column + 1) left)
        exact ⟨rfl, iff_of_false not_false (not_le.mpr (hbig.trans_le hmono)), False.elim⟩
      · have hnext := tryColumns_spec left (column + 1)
          (columnSize.set column (biggestWord words lines column))
          (by rw [List.length_set]; omega) (fun c hc => ?_) (not_lt.mp hbig)
        · rwa [List.length_set] at hnext
        · obtain hc | rfl := Nat.lt_succ_iff_lt_or_eq.mp hc
          · rw [← hsizes c hc, List.getD, List.getD, List.getElem?_set_ne (by omega)]
          · rw [List.getD, List.getElem?_set_self (by omega)]
            rfl

/-- The first number of lines with which the columns fit. -/
structure Selects (words : List (List UInt8)) (maxWidth : Nat) (join : List UInt8)
    (first lines : Nat) (columnSize : List Nat) : Prop where
  le : first ≤ lines
  fits : lineWidth words join lines (nbColumns words.length lines) ≤ maxWidth
  sizes : ∀ c < nbColumns words.length lines, columnSize.getD c 0 = biggestWord words lines c
  before : ∀ m, first ≤ m → m < lines →
    maxWidth < lineWidth words join m (nbColumns words.length m)

theorem selectLines_spec : ∀ (left first : Nat) (columnSize : List Nat),
    (∀ m, first ≤ m → m < first + left → nbColumns words.length m ≤ columnSize.length) →
    (∀ lines sizes, selectLines words maxWidth join left first columnSize = some (lines, sizes) →
      lines < first + left ∧ Selects words maxWidth join first lines sizes) ∧
    (selectLines words maxWidth join left first columnSize = none →
      ∀ m, first ≤ m → m < first + left →
        maxWidth < lineWidth words join m (nbColumns words.length m))
  | 0, first, columnSize, _ => by
      rw [selectLines]
      exact ⟨fun lines sizes h => absurd h (by simp),
        fun _ m hle hlt => absurd hle (not_le.mpr hlt)⟩
  | left + 1, first, columnSize, hlen => by
      obtain ⟨hlen', hgood, hsizes⟩ := @tryColumns_spec words maxWidth join first
        (nbColumns words.length first) 0 columnSize
        (by rw [Nat.zero_add]; exact hlen first le_rfl (by omega))
        (fun c hc => absurd hc (Nat.not_lt_zero c)) (Nat.zero_le _)
      have hzero : lineWidth words join first 0 = 0 := rfl
      rw [hzero, Nat.zero_add] at hgood hsizes
      rw [hzero] at hlen'
      rw [selectLines]
      split_ifs with htry
      · refine ⟨fun lines sizes h => ?_, fun h => absurd h (by simp)⟩
        obtain ⟨rfl, rfl⟩ := Prod.mk.inj (Option.some.inj h)
        exact ⟨by omega, le_rfl, hgood.mp htry, hsizes htry,
          fun m hle hlt => absurd hle (not_le.mpr hlt)⟩
      · have htoo : maxWidth < lineWidth words join first (nbColumns words.length first) :=
          not_le.mp fun hfits => htry (hgood.mpr hfits)
        obtain ⟨hsome, hnone⟩ := selectLines_spec left (first + 1)
          (tryColumns words maxWidth join first (nbColumns words.length first) 0 0
            columnSize).columnSize
          (fun m hle hlt => hlen' ▸ hlen m (by omega) (by omega))
        have hall : ∀ {P : Nat → Prop} {last : Nat}, P first →
            (∀ m, first + 1 ≤ m → m < last → P m) → ∀ m, first ≤ m → m < last → P m := by
          intro P last hfirst hrest m hle hlt
          obtain rfl | hne := hle.eq_or_lt
          · exact hfirst
          · exact hrest m hne hlt
        refine ⟨fun lines sizes h => ?_, fun h => ?_⟩
        · obtain ⟨hlt, hselects⟩ := hsome lines sizes h
          exact ⟨by omega, Nat.le_of_succ_le hselects.le, hselects.fits, hselects.sizes,
            hall htoo hselects.before⟩
        · rw [← Nat.succ_add_eq_add_succ]
          exact hall htoo (hnone h)

/-! ## Sizes -/

theorem foldl_max_le_iff {l : List (List UInt8)} {init k : Nat} :
    l.foldl (fun size word => max size word.length) init ≤ k ↔
      init ≤ k ∧ ∀ word ∈ l, word.length ≤ k := by
  induction l generalizing init with
  | nil => simp
  | cons word l ih => rw [List.foldl_cons, ih, max_le_iff, and_assoc, List.forall_mem_cons]

theorem getElem?_column {c : Nat} (hline : line < lines) :
    ((words.drop (lines * c)).take lines)[line]? = words[lines * c + line]? := by
  rw [List.getElem?_take_of_lt hline, List.getElem?_drop]

theorem length_le_biggestWord {c : Nat} {word : List UInt8} (hline : line < lines)
    (h : words[lines * c + line]? = some word) : word.length ≤ biggestWord words lines c := by
  rw [← getElem?_column hline] at h
  exact (foldl_max_le_iff.mp le_rfl).2 word (List.mem_of_getElem? h)

theorem length_pad {word : List UInt8} {size : Nat} (h : word.length ≤ size) :
    (pad word size).length = size := by
  rw [pad, List.length_append, List.length_replicate, Nat.add_sub_cancel' h]

/-- The words of a line from a column on. -/
def rowFrom (words : List (List UInt8)) (lines line column left : Nat) : List (List UInt8) :=
  (List.range' column left).filterMap fun c => words[lines * c + line]?

theorem rowFrom_of_none {column left : Nat} (h : words[lines * column + line]? = none) :
    rowFrom words lines line column left = [] := by
  rw [rowFrom, List.filterMap_eq_nil_iff]
  intro c hc
  rw [List.mem_range'_1] at hc
  rw [List.getElem?_eq_none_iff] at h ⊢
  have hmul := Nat.mul_le_mul_left lines hc.1
  omega

theorem rowFrom_of_some {column left : Nat} {word : List UInt8}
    (h : words[lines * column + line]? = some word) :
    rowFrom words lines line column (left + 1) =
      word :: rowFrom words lines line (column + 1) left := by
  rw [rowFrom, List.range'_succ, List.filterMap_cons, h, rowFrom]

theorem getElem?_rowFrom : ∀ {column left k : Nat}, k < left →
    (rowFrom words lines line column left)[k]? = words[lines * (column + k) + line]?
  | column, left + 1, k, hk => by
      cases h : words[lines * column + line]? with
      | none =>
        rw [rowFrom_of_none h, List.getElem?_nil, eq_comm, List.getElem?_eq_none_iff]
        rw [List.getElem?_eq_none_iff] at h
        have hmul := Nat.mul_le_mul_left lines (Nat.le_add_right column k)
        omega
      | some word =>
        rw [rowFrom_of_some h]
        cases k with
        | zero => rw [List.getElem?_cons_zero, Nat.add_zero, h]
        | succ k =>
          rw [List.getElem?_cons_succ, getElem?_rowFrom (Nat.lt_of_succ_lt_succ hk),
            Nat.succ_add_eq_add_succ]

/-- The first line has a word of each column. -/
theorem length_rowFrom_zero : ∀ left column : Nat,
    (∀ c < column + left, lines * c < words.length) →
    (rowFrom words lines 0 column left).length = left
  | 0, _, _ => rfl
  | left + 1, column, hwords => by
      obtain ⟨word, h⟩ : ∃ word, words[lines * column + 0]? = some word :=
        ⟨_, List.getElem?_eq_getElem (hwords column (by omega))⟩
      rw [rowFrom_of_some h, List.length_cons,
        length_rowFrom_zero left (column + 1) fun c hc => hwords c (by omega)]

theorem rows_eq (words : List (List UInt8)) (lines : Nat) :
    rows words lines = (List.range lines).map fun line =>
      rowFrom words lines line 0 (words.length ⌈/⌉ lines) := by
  refine List.map_congr_left fun line hline => ?_
  rw [List.mem_range] at hline
  rw [columns, List.filterMap_map, rowFrom, List.range_eq_range']
  refine List.filterMap_congr fun c _ => ?_
  exact getElem?_column hline

/-! ## Lines -/

/-- The cells of a line from a column on, with the joiners before them. -/
def joinFrom (join : List UInt8) (column : Nat) (cells : List (List UInt8)) : List UInt8 :=
  if column > 0 then (cells.map (join ++ ·)).flatten else join.intercalate cells

theorem joinFrom_nil (column : Nat) : joinFrom join column [] = [] := by
  rw [joinFrom]
  split_ifs <;> rfl

theorem intercalate_cons_eq (cell : List UInt8) (cells : List (List UInt8)) :
    join.intercalate (cell :: cells) = cell ++ (cells.map (join ++ ·)).flatten := by
  induction cells generalizing cell with
  | nil => simp
  | cons cell' cells ih =>
    rw [List.intercalate_cons_cons, ih, List.map_cons, List.flatten_cons]
    simp only [List.append_assoc]

theorem joinFrom_cons (column : Nat) (cell : List UInt8) (cells : List (List UInt8)) :
    joinFrom join column (cell :: cells) =
      (if column > 0 then join else []) ++ cell ++ joinFrom join (column + 1) cells := by
  rw [joinFrom, joinFrom, if_pos (Nat.succ_pos column)]
  split_ifs
  · rw [List.map_cons, List.flatten_cons]
  · rw [intercalate_cons_eq, List.nil_append]

theorem renderLine_eq : ∀ left column : Nat,
    renderLine words join columnSize lines line left column =
      joinFrom join column ((rowFrom words lines line column left).zipWith pad
        ((List.range' column left).map (columnSize.getD · 0)))
  | 0, column => (joinFrom_nil column).symm
  | left + 1, column => by
      cases h : words[lines * column + line]? with
      | none =>
        rw [renderLine, h, rowFrom_of_none h, List.zipWith_nil_left, joinFrom_nil]
      | some word =>
        rw [renderLine, h, rowFrom_of_some h, List.range'_succ, List.map_cons,
          List.zipWith_cons_cons, joinFrom_cons, ← renderLine_eq left (column + 1)]

/-- A cell is as wide as its column. -/
theorem lineWidth_add_cell {column : Nat} {word : List UInt8} (hline : line < lines)
    (h : words[lines * column + line]? = some word)
    (hsize : columnSize.getD column 0 = biggestWord words lines column) :
    lineWidth words join lines column +
        ((if column > 0 then join else []) ++ pad word (columnSize.getD column 0)).length =
      lineWidth words join lines (column + 1) := by
  rw [List.length_append, hsize, length_pad (length_le_biggestWord hline h), lineWidth]
  split_ifs
  · omega
  · rw [List.length_nil]
    omega

/-- A line is no wider than its columns. -/
theorem length_renderLine_le (hline : line < lines) : ∀ left column : Nat,
    (∀ c < column + left, columnSize.getD c 0 = biggestWord words lines c) →
    lineWidth words join lines column +
        (renderLine words join columnSize lines line left column).length ≤
      lineWidth words join lines (column + left)
  | 0, _, _ => le_rfl
  | left + 1, column, hsizes => by
      rw [renderLine]
      cases h : words[lines * column + line]? with
      | none => exact lineWidth_mono (Nat.le_add_right column (left + 1))
      | some word =>
        have hcell := @lineWidth_add_cell words join _ _ _ _ _ hline h (hsizes column (by omega))
        have hrest := length_renderLine_le hline left (column + 1)
          fun c hc => hsizes c (by omega)
        dsimp only
        rw [List.length_append, ← Nat.add_assoc, hcell, Nat.add_comm left, ← Nat.add_assoc]
        exact hrest

/-- The first line is as wide as the columns. -/
theorem length_renderLine_zero (hlines : 0 < lines) : ∀ left column : Nat,
    (∀ c < column + left, columnSize.getD c 0 = biggestWord words lines c) →
    (∀ c < column + left, lines * c < words.length) →
    lineWidth words join lines column +
        (renderLine words join columnSize lines 0 left column).length =
      lineWidth words join lines (column + left)
  | 0, _, _, _ => rfl
  | left + 1, column, hsizes, hwords => by
      obtain ⟨word, h⟩ : ∃ word, words[lines * column + 0]? = some word :=
        ⟨_, List.getElem?_eq_getElem (hwords column (by omega))⟩
      have hcell := @lineWidth_add_cell words join _ _ _ _ _ hlines h (hsizes column (by omega))
      have hrest := length_renderLine_zero hlines left (column + 1)
        (fun c hc => hsizes c (by omega)) (fun c hc => hwords c (by omega))
      rw [renderLine, h]
      dsimp only
      rw [List.length_append, ← Nat.add_assoc, hcell, hrest, Nat.succ_add_eq_add_succ]

/-! ## The layout -/

/-- With the sizes of the columns, the lines are those of the layout. -/
theorem layout_eq (hsizes : ∀ c < words.length ⌈/⌉ lines,
      columnSize.getD c 0 = biggestWord words lines c) :
    layout words join lines = (List.range lines).map fun line =>
      renderLine words join columnSize lines line (words.length ⌈/⌉ lines) 0 := by
  have hcolumns : columnSizes words lines =
      (List.range' 0 (words.length ⌈/⌉ lines)).map (columnSize.getD · 0) := by
    rw [columnSizes, columns, List.map_map, List.range_eq_range']
    refine List.map_congr_left fun c hc => ?_
    rw [List.mem_range'_1, Nat.zero_add] at hc
    exact (hsizes c hc.2).symm
  rw [layout, rows_eq, List.map_map, hcolumns]
  refine List.map_congr_left fun line _ => ?_
  rw [renderLine_eq]
  rfl

theorem getD_columnSizes {c : Nat} (hc : c < words.length ⌈/⌉ lines) :
    (columnSizes words lines).getD c 0 = biggestWord words lines c := by
  rw [columnSizes, columns, List.map_map, List.getD, List.getElem?_map,
    List.getElem?_range hc]
  rfl

/-- The columns of a layout have words. -/
theorem mul_lt_length {c : Nat} (hlines : 0 < lines) (hc : c < words.length ⌈/⌉ lines) :
    lines * c < words.length := by
  by_contra hnot
  have hle := (ceilDiv_le_iff_le_mul hlines).mpr (not_lt.mp hnot)
  omega

/-- A layout whose columns are too wide has a line that is too long. -/
theorem exists_line_of_lt (hlines : 0 < lines)
    (h : maxWidth < lineWidth words join lines (words.length ⌈/⌉ lines)) :
    ∃ line ∈ layout words join lines, maxWidth < line.length := by
  have hlength := @length_renderLine_zero words join _ _ hlines (words.length ⌈/⌉ lines) 0
    (fun c hc => @getD_columnSizes words lines c (by omega))
    (fun c hc => mul_lt_length hlines (by omega))
  rw [lineWidth, Nat.zero_add, Nat.zero_add] at hlength
  rw [layout_eq fun c hc => getD_columnSizes hc]
  exact ⟨_, List.mem_map_of_mem (List.mem_range.mpr hlines), hlength ▸ h⟩

theorem filterMap_range_getElem? (l : List (List UInt8)) (k : Nat) :
    (List.range k).filterMap (l[·]?) = l.take k := by
  induction k with
  | zero => rfl
  | succ k ih =>
    rw [List.range_succ, List.filterMap_append, ih, List.take_add_one]
    cases h : l[k]? with
    | none => rw [List.filterMap_cons_none h]; rfl
    | some word => rw [List.filterMap_cons_some h]; rfl

theorem flatMap_columns (words : List (List UInt8)) (lines k : Nat) :
    ((List.range k).flatMap fun c => (words.drop (lines * c)).take lines) =
      words.take (lines * k) := by
  induction k with
  | zero => rfl
  | succ k ih =>
    rw [List.range_succ, List.flatMap_append, ih, List.flatMap_singleton, Nat.mul_succ,
      List.take_add]

/-- The lines of a layout read column by column. -/
theorem readColumns_rows (hlines : 0 < lines) : readColumns (rows words lines) = words := by
  have hfirst : ((rows words lines).headD []).length = words.length ⌈/⌉ lines := by
    obtain ⟨k, rfl⟩ := Nat.exists_eq_succ_of_ne_zero hlines.ne'
    rw [rows_eq, List.range_succ_eq_map, List.map_cons, List.headD_cons]
    exact length_rowFrom_zero _ 0 fun c hc => mul_lt_length hlines (by omega)
  rw [readColumns, hfirst]
  have hcolumn : ∀ c ∈ List.range (words.length ⌈/⌉ lines),
      (rows words lines).filterMap (·[c]?) = (words.drop (lines * c)).take lines := by
    intro c hc
    rw [List.mem_range] at hc
    rw [rows_eq, List.filterMap_map, ← filterMap_range_getElem?]
    refine List.filterMap_congr fun line _ => ?_
    have hrow := @getElem?_rowFrom words lines line 0 _ c hc
    rw [Nat.zero_add] at hrow
    rw [List.getElem?_drop]
    exact hrow
  rw [List.flatMap_congr hcolumn, flatMap_columns, List.take_of_length_le]
  exact (ceilDiv_le_iff_le_mul hlines).mp le_rfl

/-! ## The result -/

theorem selectLines_words (hlt : words.length < 2 ^ 24) :
    (∀ lines sizes, selectLines words maxWidth join words.length 1
        (List.replicate words.length 0) = some (lines, sizes) →
      lines < 1 + words.length ∧ Selects words maxWidth join 1 lines sizes) ∧
    (selectLines words maxWidth join words.length 1 (List.replicate words.length 0) = none →
      ∀ m, 1 ≤ m → m < 1 + words.length →
        maxWidth < lineWidth words join m (nbColumns words.length m)) := by
  refine selectLines_spec words.length 1 _ fun m hm hle => ?_
  rw [List.length_replicate, nbColumns_eq hm (by omega) hlt, ceilDiv_le_iff_le_mul hm]
  exact Nat.le_mul_of_pos_left _ hm

theorem toColumns_eq_nil (hlt : words.length < 2 ^ 24) (h : toColumns words maxWidth join = []) :
    words = [] ∨ ∃ word ∈ words, maxWidth < word.length := by
  by_cases hwords : words = []
  · exact .inl hwords
  have hpos : 0 < words.length := List.length_pos_iff.mpr hwords
  obtain ⟨hsome, hnone⟩ := @selectLines_words words maxWidth join hlt
  rw [toColumns, if_neg hwords] at h
  cases hselect : selectLines words maxWidth join words.length 1
      (List.replicate words.length 0) with
  | none =>
    -- with one column the width is the biggest word
    have hwide := hnone hselect words.length hpos (by omega)
    have hone : words.length ⌈/⌉ words.length = 1 := by
      rw [Nat.ceilDiv_eq_add_pred_div]
      exact Nat.div_eq_of_lt_le (by omega) (by omega)
    rw [nbColumns_eq hpos le_rfl hlt, hone] at hwide
    refine .inr ?_
    by_contra hall
    have hbig : biggestWord words words.length 0 ≤ maxWidth := by
      refine foldl_max_le_iff.mpr ⟨Nat.zero_le _, fun word hword => ?_⟩
      refine not_lt.mp fun hlong => hall ⟨word, ?_, hlong⟩
      exact List.mem_of_mem_drop (List.mem_of_mem_take hword)
    simp only [lineWidth, Nat.lt_irrefl, if_false, gt_iff_lt] at hwide
    omega
  | some selected =>
    obtain ⟨lines, sizes⟩ := selected
    have hle := (hsome lines sizes hselect).2.le
    rw [hselect] at h
    have hlen := congrArg List.length h
    rw [List.length_map, List.length_range, List.length_nil] at hlen
    omega

theorem toColumns_laysOut (hlt : words.length < 2 ^ 24)
    (h : toColumns words maxWidth join ≠ []) :
    LaysOut words maxWidth join (toColumns words maxWidth join) := by
  have hwords : words ≠ [] := by
    rintro rfl
    exact h rfl
  obtain ⟨hsome, -⟩ := @selectLines_words words maxWidth join hlt
  cases hselect : selectLines words maxWidth join words.length 1
      (List.replicate words.length 0) with
  | none =>
    rw [toColumns, if_neg hwords, hselect] at h
    exact absurd rfl h
  | some selected =>
    obtain ⟨lines, sizes⟩ := selected
    obtain ⟨hlines, hselects⟩ := hsome lines sizes hselect
    have hpos : 0 < lines := hselects.le
    have hcount := nbColumns_eq hpos (by omega) hlt
    have hsizes := hselects.sizes
    have hfits := hselects.fits
    rw [hcount] at hsizes hfits
    have hresult : toColumns words maxWidth join = layout words join lines := by
      rw [toColumns, if_neg hwords, hselect, layout_eq hsizes, ← hcount]
    have hlength : (layout words join lines).length = lines := by
      rw [layout_eq hsizes, List.length_map, List.length_range]
    rw [hresult]
    refine ⟨by rw [hlength], by rw [hlength, readColumns_rows hpos], fun line hline => ?_,
      fun m hm hless => ?_⟩
    · rw [layout_eq hsizes, List.mem_map] at hline
      obtain ⟨i, hi, rfl⟩ := hline
      rw [List.mem_range] at hi
      have hle := @length_renderLine_le words join _ _ _ hi (words.length ⌈/⌉ lines) 0
        fun c hc => hsizes c (by omega)
      rw [lineWidth, Nat.zero_add, Nat.zero_add] at hle
      exact hle.trans hfits
    · rw [hlength] at hless
      have hwide := hselects.before m hm hless
      rw [nbColumns_eq hm (by omega) hlt] at hwide
      exact exists_line_of_lt hm hwide

/-- The columns of fewer than `2 ^ 24` words lay them out, and there are none only
for no words or a word that is too long. -/
theorem toColumns_spec (words : List (List UInt8)) (maxWidth : Nat) (join : List UInt8)
    (hlt : words.length < 2 ^ 24) :
    (toColumns words maxWidth join ≠ [] →
      LaysOut words maxWidth join (toColumns words maxWidth join)) ∧
    (toColumns words maxWidth join = [] →
      words = [] ∨ ∃ word ∈ words, maxWidth < word.length) :=
  ⟨toColumns_laysOut hlt, toColumns_eq_nil hlt⟩

/-- Three words in lines of four characters: two columns. -/
theorem toColumns_three :
    toColumns [[97, 98], [99], [100]] 4 [32] = [[97, 98, 32, 100], [99, 32]] ∧
      LaysOut [[97, 98], [99], [100]] 4 [32] [[97, 98, 32, 100], [99, 32]] := by
  have heq : toColumns [[97, 98], [99], [100]] 4 [32] = [[97, 98, 32, 100], [99, 32]] := by
    decide +kernel
  have hlays := (toColumns_spec [[97, 98], [99], [100]] 4 [32] (by decide)).1
  rw [heq] at hlays
  exact ⟨heq, hlays (by decide)⟩

end Sihd.Util.Str
