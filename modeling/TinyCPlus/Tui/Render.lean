import TinyCPlus.Tui.Glyphs
import TinyCPlus.Tui.Terminal

/-!
# Rendering

`tc_ui_render` writes the cells that differ from the front buffer.  Writing a glyph may
erase half of another one on the terminal; the cells that lose a half so are all
written later, or they are covered by a glyph that was written.
-/

namespace TinyCPlus.Tui

open TinyCPlus.Library

/-- The front buffer, the bytes so far and the variables of `tc_ui_render`. -/
structure Render where
  front : List TcUiCell
  bytes : List UInt8
  changed : ℕ
  lastX : ℤ
  lastY : ℤ
  fg : ℕ
  bg : ℕ

namespace Render

/-- The sequence that moves the cursor, if it is not believed to be there. -/
def move (r : Render) (x y : ℕ) : List UInt8 :=
  if r.lastY ≠ y ∨ r.lastX ≠ x then Terminal.sequence [y + 1, x + 1] 72 else []

/-- The parameters for a colour, with its bytes. -/
def colourParams (which colour : ℕ) : List ℕ :=
  [which, 2, colour >>> 16 &&& 255, colour >>> 8 &&& 255, colour &&& 255]

/-- The sequences for the colours of a cell, if they differ from the last ones. -/
def colour (r : Render) (cell : TcUiCell) : List UInt8 :=
  if r.fg ≠ cell.foreground ∨ r.bg ≠ cell.background then
    Terminal.sequence (colourParams 38 cell.foreground) 109 ++
      Terminal.sequence (colourParams 48 cell.background) 109
  else []

/-- One turn of the loops. -/
def cell (columns : ℕ) (back : List TcUiCell) (y : ℕ) (r : Render) (x : ℕ) : Render :=
  let cell := cellAt columns back x y
  if cell = cellAt columns r.front x y then r
  else
    let kept : Render :=
      { r with
        front := Store.apply r.front ⟨y * columns + x, fun _ ↦ cell⟩
        changed := r.changed + 1 }
    if cell.width = 0 then kept
    else
      { kept with
        bytes := r.bytes ++ (r.move x y ++ r.colour cell ++ utf8Encode cell.shown)
        lastX := x + cell.width
        lastY := y
        fg := cell.foreground
        bg := cell.background }

def row (columns : ℕ) (back : List TcUiCell) (r : Render) (y : ℕ) : Render :=
  (List.range columns).foldl (cell columns back y) r

end Render

/-- The loops of `tc_ui_render`. -/
def TcUi.rendered (ui : TcUi) : Render :=
  (List.range ui.height).foldl (Render.row ui.width ui.back)
    ⟨ui.front, [], 0, -2, -2, 0xffffffff, 0xffffffff⟩

/-- `tc_ui_render` -/
def TcUi.render (ui : TcUi) : TcUi × List UInt8 :=
  ({ ui with front := ui.rendered.front }, ui.rendered.bytes)

/-! ## What a terminal shows -/

/-- Every wide cell has its second half behind it, every second half stands behind a wide
cell, and colours have three bytes. -/
structure Halves (columns rows : ℕ) (cells : List TcUiCell) : Prop where
  length : cells.length = columns * rows
  wide : ∀ x y, x < columns → y < rows → (cellAt columns cells x y).width = 2 →
    x + 1 < columns ∧ (cellAt columns cells (x + 1) y).width = 0
  half : ∀ x y, x < columns → y < rows → (cellAt columns cells x y).width = 0 →
    ∃ x', x = x' + 1 ∧ (cellAt columns cells x' y).width = 2
  colours : ∀ x y, x < columns → y < rows →
    (cellAt columns cells x y).foreground ≤ 0xffffff ∧
      (cellAt columns cells x y).background ≤ 0xffffff

/-- The cells that are no second halves hold glyphs of their width. -/
structure Frame (columns rows : ℕ) (cells : List TcUiCell) : Prop
    extends Halves columns rows cells where
  glyph : ∀ x y, x < columns → y < rows → (cellAt columns cells x y).width ≠ 0 →
    ¬ isControl (cellAt columns cells x y).shown ∧
      uiWidth (utf8Valid (cellAt columns cells x y).shown) = (cellAt columns cells x y).width

namespace Terminal

/-- The code point that is written for a cell, its width and its colours are shown. -/
def ShowsCell (t : Terminal) (x y : ℕ) (cell : TcUiCell) : Prop :=
  cell.width ≠ 0 →
    t.screen y x = .glyph ⟨utf8Valid cell.shown, cell.foreground, cell.background⟩ cell.width

def Shows (t : Terminal) (columns rows : ℕ) (cells : List TcUiCell) : Prop :=
  ∀ x y, x < columns → y < rows → t.ShowsCell x y (cellAt columns cells x y)

/-- The terminal waits for a sequence or a code point, and its wide glyphs are whole. -/
structure Ready (t : Terminal) (columns : ℕ) : Prop where
  mode : t.mode = .ground
  columns : t.columns = columns
  whole : ∀ y, GlyphRow.Whole (t.screen y)

end Terminal

end TinyCPlus.Tui
