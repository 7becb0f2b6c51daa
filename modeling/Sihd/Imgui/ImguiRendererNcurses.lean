import Mathlib.Data.List.Basic
import Sihd.Lib.IdCache
import Sihd.Lib.Transition
import Sihd.Lib.Rows

/-!
# The ncurses renderer

A frame is compared with the previous one, and the rows that have changed are drawn. A colour
pair of the terminal is given to each foreground and background that is drawn; when no pair is
left, all of them are given up and the frame before is forgotten.
-/

namespace Sihd.Imgui

structure TCell where
  ch : UInt32
  fg : UInt8
  bg : UInt8
  deriving DecidableEq

namespace TCell

/-- The cell that differs from those of a frame. -/
def invalid : TCell := ⟨0xFFFFFFFF, 0xFF, 0xFF⟩

def pairKey (cell : TCell) : Nat := cell.bg.toNat * 256 + cell.fg.toNat

/-- What is written of a cell. -/
def char (cell : TCell) : UInt8 :=
  if 0x20 ≤ cell.ch ∧ cell.ch ≤ 0x7E then cell.ch.toUInt8 else 32

end TCell

/-- The foreground and the background of a key. -/
def colors (key : Nat) : UInt8 × UInt8 := (UInt8.ofNat key, UInt8.ofNat (key / 256))

/-! ### The terminal -/

structure Shown where
  ch : UInt8
  pair : Nat
  deriving DecidableEq

/-- `pairs` are the colours of the pairs, `attr` is the pair that is on, and `shown` what each
column of a row shows. -/
structure Terminal where
  pairs : Nat → Option (UInt8 × UInt8)
  attr : Nat
  cursorY : Nat
  cursorX : Nat
  shown : Nat → Nat → Option Shown

namespace Terminal

def create : Terminal := ⟨fun _ => none, 0, 0, 0, fun _ _ => none⟩

def initPair (t : Terminal) (pid : Nat) (fg bg : UInt8) : Terminal :=
  { t with pairs := Function.update t.pairs pid (some (fg, bg)) }

def attron (t : Terminal) (pid : Nat) : Terminal := { t with attr := pid }

def move (t : Terminal) (y x : Nat) : Terminal := { t with cursorY := y, cursorX := x }

/-- The characters go to the row of the cursor, which they do not leave. -/
def addstr (t : Terminal) (s : List UInt8) : Terminal :=
  { t with
    cursorX := t.cursorX + s.length
    shown := fun y x =>
      if y = t.cursorY ∧ t.cursorX ≤ x ∧ x < t.cursorX + s.length then
        (s[x - t.cursorX]?).map fun ch => ⟨ch, t.attr⟩
      else t.shown y x }

def werase (t : Terminal) : Terminal := { t with shown := fun _ _ => none }

end Terminal

/-! ### The renderer -/

/-- The cell of column `x` in row `y` has the index `y * screenW + x`. The numbers of pairs are
below `COLOR_PAIRS`, which a `short` can be. -/
structure Renderer where
  needsFullRedraw : Bool
  screenW : Nat
  screenH : Nat
  screen : Nat → TCell
  screenPrev : Nat → TCell
  pairCache : IdCache Nat
  terminal : Terminal

/-- `COLS`, `LINES` and what is rasterized. -/
structure Frame where
  cols : Nat
  lines : Nat
  screen : Nat → TCell

namespace Renderer

/-- `init`. -/
def init (cols lines : Nat) : Renderer where
  needsFullRedraw := false
  screenW := cols
  screenH := lines
  screen _ := ⟨0, 0, 0⟩
  screenPrev _ := .invalid
  pairCache := .empty
  terminal := .create

def resize (r : Renderer) (cols lines : Nat) : Renderer :=
  { r with
    screenW := cols
    screenH := lines
    screen := fun _ => ⟨0, 0, 0⟩
    screenPrev := fun _ => ⟨0, 0, 0⟩
    needsFullRedraw := true }

section Flush

variable (colorPairs : Nat)

def getOrAllocColorPair (r : Renderer) (fg bg : UInt8) : Renderer × Nat :=
  let key := bg.toNat * 256 + fg.toNat
  match r.pairCache.ids key with
  | some cached => (r, cached)
  | none =>
      let r := if colorPairs - 1 ≤ r.pairCache.next then
        { r with pairCache := .empty, screenPrev := fun _ => .invalid } else r
      let pid := r.pairCache.next
      ({ r with
        pairCache := r.pairCache.add key
        terminal := r.terminal.initPair pid fg bg }, pid)

def attron (r : Renderer) (pid : Nat) : Renderer :=
  { r with terminal := r.terminal.attron pid }

/-- Write what is in the buffer. -/
def writeRow (r : Renderer) (rowBuf : List UInt8) : Renderer :=
  if 0 < rowBuf.length then { r with terminal := r.terminal.addstr rowBuf } else r

/-- The loop over the cells of a row, with the buffer and the key of the pair that is on. -/
def flushCells (r : Renderer) (rowBuf : List UInt8) (lastPair : Option Nat) :
    List TCell → Renderer
  | [] => r.writeRow rowBuf
  | cell :: cells =>
      if some cell.pairKey ≠ lastPair then
        let (r, pid) := (r.writeRow rowBuf).getOrAllocColorPair colorPairs cell.fg cell.bg
        flushCells (r.attron pid) [cell.char] (some cell.pairKey) cells
      else flushCells r (rowBuf ++ [cell.char]) lastPair cells

/-- The cells of a row that are drawn; the last cell of the last row is none. -/
def rowCells (r : Renderer) (y : Nat) : List TCell :=
  (List.range (if y + 1 = r.screenH then r.screenW - 1 else r.screenW)).map fun x =>
    r.screen (y * r.screenW + x)

def flushRow (r : Renderer) (y : Nat) : Renderer :=
  let r := flushCells colorPairs { r with terminal := r.terminal.move y 0 } [] none (r.rowCells y)
  { r with
    screenPrev := fun i =>
      if y * r.screenW ≤ i ∧ i < y * r.screenW + r.screenW then r.screen i else r.screenPrev i }

def rowChanged (r : Renderer) (y : Nat) : Bool :=
  (List.range r.screenW).any fun x =>
    r.screen (y * r.screenW + x) ≠ r.screenPrev (y * r.screenW + x)

def flushChanged (r : Renderer) (y : Nat) : Renderer :=
  if r.rowChanged y then r.flushRow colorPairs y else r

/-- A full redraw erases the screen. -/
def beginFlush (r : Renderer) : Renderer :=
  if r.needsFullRedraw then
    { r with
      terminal := r.terminal.werase
      screenPrev := fun _ => .invalid
      needsFullRedraw := false }
  else r

def flushToNcurses (r : Renderer) : Renderer :=
  (List.range r.screenH).foldl (flushChanged colorPairs) r.beginFlush

/-- What `render` has rasterized before it flushes. -/
def rasterize (r : Renderer) (frame : Frame) : Renderer :=
  let r := if r.screenW ≠ frame.cols ∨ r.screenH ≠ frame.lines then
    r.resize frame.cols frame.lines else r
  { r with screen := frame.screen }

def render (r : Renderer) (frame : Frame) : Renderer :=
  (r.rasterize frame).flushToNcurses colorPairs

def step (r : Renderer) (frame : Frame) : Option Renderer := some (r.render colorPairs frame)

end Flush

end Renderer

end Sihd.Imgui

/-!
## The colours on the screen

A cell keeps its colours as long as the pair that it was drawn with is that of its colours. The
pairs are given up at the first cell of a row that is drawn, or within the row, whose first
cells are then taken for what they no longer are.
-/

namespace Sihd.Imgui.Renderer

variable {colorPairs : Nat} {r r' r'' : Renderer}

/-- The cells that are not the last of the last row. -/
def IsDrawable (r : Renderer) (y x : Nat) : Prop :=
  y < r.screenH ∧ x < r.screenW ∧ ¬ (y + 1 = r.screenH ∧ x + 1 = r.screenW)

/-- The pairs of the cache are those of the terminal. -/
structure PairsValid (colorPairs : Nat) (r : Renderer) : Prop where
  valid : r.pairCache.Valid colorPairs
  pairs : ∀ key pair, r.pairCache.ids key = some pair →
    r.terminal.pairs pair = some (colors key)

theorem colors_pairKey (cell : TCell) : colors cell.pairKey = (cell.fg, cell.bg) := by
  have hfg := cell.fg.toNat_lt
  have hbg := cell.bg.toNat_lt
  rw [colors, TCell.pairKey, Prod.mk.injEq, ← UInt8.toNat_inj, ← UInt8.toNat_inj,
    UInt8.toNat_ofNat', UInt8.toNat_ofNat']
  omega

/-- A pair that is new is mapped to its colours, in the cache and in the terminal. -/
theorem PairsValid.add (h : PairsValid colorPairs r) (hcolors : 2 ≤ colorPairs) (cell : TCell)
    (prev : Nat → TCell) :
    PairsValid colorPairs { r with
      screenPrev := prev
      pairCache := (r.pairCache.renew colorPairs).add cell.pairKey
      terminal := r.terminal.initPair (r.pairCache.renew colorPairs).next cell.fg cell.bg } := by
  refine ⟨h.valid.renew.add (IdCache.renew_next_le hcolors _) _, fun key pair hid => ?_⟩
  change (Function.update r.terminal.pairs (r.pairCache.renew colorPairs).next
    (some (cell.fg, cell.bg))) pair = _
  change ((r.pairCache.renew colorPairs).add cell.pairKey).ids key = some pair at hid
  rw [IdCache.ids_add] at hid
  split at hid
  · rename_i hkey
    rw [← Option.some.inj hid, Function.update_self, hkey, colors_pairKey]
  · have hlt := h.valid.renew.lt_next hid
    rw [Function.update_of_ne hlt.ne]
    rw [IdCache.renew] at hid
    split at hid
    · cases hid
    · exact h.pairs key pair hid

/-- Cells are drawn in a row from a column on, with pairs that the cache keeps. -/
structure Draws (colorPairs : Nat) (r r' : Renderer) (y x : Nat) (cells : List TCell) : Prop where
  screenW : r'.screenW = r.screenW
  screenH : r'.screenH = r.screenH
  screen : r'.screen = r.screen
  screenPrev : r'.screenPrev = r.screenPrev
  valid : PairsValid colorPairs r → PairsValid colorPairs r'
  ids : ∀ k id, r.pairCache.ids k = some id → r'.pairCache.ids k = some id
  drawn : ∀ j cell, cells[j]? = some cell → ∃ pair,
    r'.terminal.shown y (x + j) = some ⟨cell.char, pair⟩ ∧
      r'.pairCache.ids cell.pairKey = some pair
  others : ∀ y' x', ¬ (y' = y ∧ x ≤ x' ∧ x' < x + cells.length) →
    r'.terminal.shown y' x' = r.terminal.shown y' x'

theorem Draws.trans {y x x' : Nat} {cells cells' : List TCell}
    (h : Draws colorPairs r r' y x cells) (h' : Draws colorPairs r' r'' y x' cells')
    (hx : x' = x + cells.length) : Draws colorPairs r r'' y x (cells ++ cells') := by
  subst hx
  refine ⟨h'.screenW.trans h.screenW, h'.screenH.trans h.screenH, h'.screen.trans h.screen,
    h'.screenPrev.trans h.screenPrev, fun hvalid => h'.valid (h.valid hvalid),
    fun k id hid => h'.ids k id (h.ids k id hid), fun j cell hcell => ?_, fun y' x' hout => ?_⟩
  · by_cases hj : j < cells.length
    · rw [List.getElem?_append_left hj] at hcell
      obtain ⟨pair, hshown, hid⟩ := h.drawn j cell hcell
      refine ⟨pair, ?_, h'.ids _ _ hid⟩
      rw [h'.others y (x + j) (by omega), hshown]
    · rw [List.getElem?_append_right (by omega)] at hcell
      obtain ⟨pair, hshown, hid⟩ := h'.drawn (j - cells.length) cell hcell
      refine ⟨pair, ?_, hid⟩
      rwa [show x + cells.length + (j - cells.length) = x + j by omega] at hshown
  · rw [List.length_append] at hout
    rw [h'.others y' x' (by omega), h.others y' x' (by omega)]

/-- The cells that are not forgotten are on the screen, with the pairs of their colours. -/
def Clean (r : Renderer) : Prop :=
  ∀ y x, r.IsDrawable y x → r.screenPrev (y * r.screenW + x) ≠ .invalid → ∃ pair,
    r.terminal.shown y x = some ⟨(r.screenPrev (y * r.screenW + x)).char, pair⟩ ∧
      r.pairCache.ids (r.screenPrev (y * r.screenW + x)).pairKey = some pair

/-- The cells of a row that are not forgotten are those of the frame. -/
def RowSynced (r : Renderer) (y : Nat) : Prop :=
  ∀ x < r.screenW, r.screenPrev (y * r.screenW + x) = r.screen (y * r.screenW + x) ∨
    r.screenPrev (y * r.screenW + x) = .invalid

/-- What drawing a row keeps. -/
structure Keeps (colorPairs : Nat) (r r' : Renderer) : Prop where
  screenW : r'.screenW = r.screenW
  screenH : r'.screenH = r.screenH
  valid : PairsValid colorPairs r'
  clean : r'.Clean
  synced : ∀ y, r.RowSynced y → r'.RowSynced y

end Sihd.Imgui.Renderer
