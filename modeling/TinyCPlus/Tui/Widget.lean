import TinyCPlus.Tui.Screen

/-!
# The widgets of `runtime/tui.c`

A widget is its own fields and its children.  Layout gives every widget its area,
and drawing is the list of its operations on the window.  Sizes are integers; the
source computes them in `int`.
-/

namespace TinyCPlus.Tui

open TinyCPlus.Runtime

inductive WidgetKind where
  | label
  | button
  | textbox
  | panel
  | row
  | column
  | stack
deriving DecidableEq, Repr

/-- The fields `x`, `y`, `width` and `height` of a widget. -/
structure Rect where
  x : ℤ
  y : ℤ
  width : ℤ
  height : ℤ
deriving DecidableEq, Repr

/-- The fields of a widget besides its links; `address` stands for the pointer to it,
and `callback` tells whether it has one. -/
structure WidgetFields where
  address : ℕ
  kind : WidgetKind
  area : Rect
  preferredWidth : ℤ
  preferredHeight : ℤ
  scrollLine : ℤ
  scrollColumn : ℤ
  text : List UInt8
  buffer : Option TcGap
  callback : Bool
deriving DecidableEq, Repr

/-- The fields of a widget from `tc_widget_create`. -/
def WidgetFields.create (address : ℕ) (kind : WidgetKind) (text : List UInt8)
    (width height : ℤ) : WidgetFields where
  address := address
  kind := kind
  area := ⟨0, 0, 0, 0⟩
  preferredWidth := width
  preferredHeight := height
  scrollLine := 0
  scrollColumn := 0
  text := text
  buffer := if kind = .textbox then TcGap.create text else none
  callback := false

inductive TcWidget where
  | mk (own : WidgetFields) (children : List TcWidget)

namespace TcWidget

def own : TcWidget → WidgetFields
  | .mk own _ => own

def children : TcWidget → List TcWidget
  | .mk _ children => children

@[simp] theorem own_mk (own : WidgetFields) (children : List TcWidget) :
    (mk own children).own = own := rfl

@[simp] theorem children_mk (own : WidgetFields) (children : List TcWidget) :
    (mk own children).children = children := rfl

mutual

/-- The widget and all its descendants. -/
def subtrees : TcWidget → List TcWidget
  | .mk own children => .mk own children :: allSubtrees children

def allSubtrees : List TcWidget → List TcWidget
  | [] => []
  | child :: rest => child.subtrees ++ allSubtrees rest

end

end TcWidget

/-! ## Layout -/

/-- `tc_widget_natural`; zero for a flexible size. -/
def TcWidget.natural (w : TcWidget) (vertical : Bool) : ℤ :=
  let wanted := if vertical then w.own.preferredHeight else w.own.preferredWidth
  if 0 < wanted then wanted
  else if w.own.kind = .label ∨ w.own.kind = .button then
    if vertical then 1 else w.own.text.length + (if w.own.kind = .button then 4 else 0)
  else 0

/-- The area for the children: a panel keeps a border of one cell. -/
def contentRect (kind : WidgetKind) (area : Rect) : Rect :=
  let inner : Rect :=
    if kind = .panel then ⟨area.x + 1, area.y + 1, area.width - 2, area.height - 2⟩ else area
  { inner with
    width := if inner.width < 0 then 0 else inner.width
    height := if inner.height < 0 then 0 else inner.height }

/-- The size of `r` along the main axis. -/
def Rect.main (r : Rect) (vertical : Bool) : ℤ := if vertical then r.height else r.width

/-- The part of `r` of the given size from `position` on along the main axis. -/
def Rect.slice (r : Rect) (vertical : Bool) (position size : ℤ) : Rect :=
  ⟨r.x + (if vertical then 0 else position), r.y + (if vertical then position else 0),
    if vertical then r.width else size, if vertical then size else r.height⟩

/-- The first loop over the children: the sum of the fixed sizes and the number of
flexible children. -/
def childTotals (vertical : Bool) : List TcWidget → ℤ × ℤ
  | [] => (0, 0)
  | child :: rest =>
      let size := child.natural vertical
      let sums := childTotals vertical rest
      if size ≠ 0 then (sums.1 + size, sums.2) else (sums.1, sums.2 + 1)

/-- What the second loop grants a flexible child. -/
def flexSize (available total flex : ℤ) : ℤ :=
  let size := if flex ≠ 0 then (available - total).tdiv flex else 0
  if size < 0 then 0 else size

/-- The size that is left of `size` at `position`. -/
def clampSize (available position size : ℤ) : ℤ :=
  let size := if available - position < size then available - position else size
  if size < 0 then 0 else size

namespace TcWidget

mutual

def layout : TcWidget → Rect → TcWidget
  | .mk own children, area =>
      let vertical : Bool := own.kind ≠ .row
      let content := contentRect own.kind area
      let sums := childTotals vertical children
      .mk { own with area := area }
        (layoutChildren own.kind vertical content children sums.1 sums.2 0)

/-- The second loop over the children. -/
def layoutChildren (kind : WidgetKind) (vertical : Bool) (content : Rect) :
    List TcWidget → ℤ → ℤ → ℤ → List TcWidget
  | [], _, _, _ => []
  | child :: rest, total, flex, position =>
      if kind = .stack then
        child.layout content :: layoutChildren kind vertical content rest total flex position
      else
        let natural := child.natural vertical
        let available := content.main vertical
        let granted := if natural = 0 then flexSize available total flex else natural
        let total := if natural = 0 then total + granted else total
        let flex := if natural = 0 then flex - 1 else flex
        let size := clampSize available position granted
        child.layout (content.slice vertical position size) ::
          layoutChildren kind vertical content rest total flex (position + size)

end

end TcWidget

/-! ## Drawing -/

/-- `tc_widget_border` -/
def drawBorder (own : WidgetFields) : List DrawOp :=
  let area := own.area
  if area.width < 2 ∨ area.height < 2 then []
  else
    (List.range area.width.toNat).flatMap (fun i ↦
      [.put (area.x + i) area.y 45 0x607d8b 0x101820,
        .put (area.x + i) (area.y + area.height - 1) 45 0x607d8b 0x101820]) ++
    (List.range area.height.toNat).flatMap (fun i ↦
      [.put area.x (area.y + i) 124 0x607d8b 0x101820,
        .put (area.x + area.width - 1) (area.y + i) 124 0x607d8b 0x101820]) ++
    textClip (area.x + 2) area.y own.text 0x8fd3ff 0x101820 (area.width - 4)

def drawButton (own : WidgetFields) (focused : Bool) : List DrawOp :=
  let area := own.area
  let fg := if focused then 0x101820 else 0xe6edf3
  let bg := if focused then 0x64b5f6 else 0x101820
  (List.range area.width.toNat).map (fun i ↦ .put (area.x + i) area.y 32 fg bg) ++
    [.put area.x area.y 91 fg bg] ++
    textClip (area.x + 2) area.y own.text fg bg (area.width - 4) ++
    [.put (area.x + area.width - 1) area.y 93 fg bg]

/-- The columns that a code point takes at `column`, with tab stops every four. -/
def columnWidth (cp : ℕ) (column : ℤ) : ℤ :=
  if cp = 9 then 4 - column.tmod 4 else uiWidth cp

/-- `while (cursor < w->buffer->start)`.  The cursor moves up at every turn. -/
def caretLoop (text : List UInt8) (start : ℕ) : ℕ → ℕ → ℤ → ℤ
  | 0, _, column => column
  | fuel + 1, cursor, column =>
      if cursor < start then
        let cp := (utf8Decode text cursor).1
        caretLoop text start fuel (utf8Decode text cursor).2
          (if cp = 10 then 0 else column + columnWidth cp column)
      else column

def caretColumn (g : TcGap) : ℤ := caretLoop g.text g.start g.start 0 0

/-- A scroll offset after it has followed the caret. -/
def followCaret (caret scroll size : ℤ) : ℤ :=
  let scroll := if caret < scroll then caret else scroll
  if scroll + size ≤ caret then caret - size + 1 else scroll

/-- The loop over the text of a text box, with its scroll offsets. -/
def textboxLoop (area : Rect) (scrollLine scrollColumn : ℤ) (text : List UInt8) :
    ℕ → ℕ → ℤ → ℤ → List DrawOp
  | 0, _, _, _ => []
  | fuel + 1, p, line, column =>
      if p < text.length ∧ line < scrollLine + area.height then
        let cp := (utf8Decode text p).1
        let p := (utf8Decode text p).2
        if cp = 10 then textboxLoop area scrollLine scrollColumn text fuel p (line + 1) 0
        else
          let cw := columnWidth cp column
          let x := area.x + column - scrollColumn
          let y := area.y + line - scrollLine
          let shown :=
            if scrollLine ≤ line ∧ scrollColumn ≤ column ∧
                column + cw ≤ scrollColumn + area.width then
              if cp = 9 then
                (List.range cw.toNat).map fun j ↦ .put (x + j) y 32 0xe6edf3 0x101820
              else [.put x y cp 0xe6edf3 0x101820]
            else []
          shown ++ textboxLoop area scrollLine scrollColumn text fuel p line (column + cw)
      else []

/-- The fields of a text box after its scroll offsets have followed the caret. -/
def WidgetFields.scrolled (own : WidgetFields) (g : TcGap) : WidgetFields :=
  { own with
    scrollLine := followCaret g.line own.scrollLine own.area.height
    scrollColumn := followCaret (caretColumn g) own.scrollColumn own.area.width }

def drawTextbox (own : WidgetFields) (g : TcGap) (focused : Bool) : List DrawOp :=
  let area := own.area
  let own := own.scrolled g
  let x := area.x + caretColumn g - own.scrollColumn
  let y := area.y + g.line - own.scrollLine
  textboxLoop area own.scrollLine own.scrollColumn g.text g.text.length 0 0 0 ++
    if focused ∧ area.x ≤ x ∧ x < area.x + area.width ∧ area.y ≤ y ∧ y < area.y + area.height then
      [.caret x y]
    else []

/-- What a widget draws ahead of its children. -/
def drawOwn (focus : Option ℕ) (own : WidgetFields) : List DrawOp :=
  let focused : Bool := focus = some own.address
  match own.kind with
  | .panel => drawBorder own
  | .label =>
      textClip own.area.x own.area.y own.text 0xe6edf3 0x101820 own.area.width
  | .button => drawButton own focused
  | .textbox =>
      match own.buffer with
      | some g => drawTextbox own g focused
      | none => []
  | _ => []

namespace TcWidget

mutual

def draw (focus : Option ℕ) : TcWidget → List DrawOp
  | .mk own children =>
      if own.area.width ≤ 0 ∨ own.area.height ≤ 0 then []
      else drawOwn focus own ++ drawChildren focus children

def drawChildren (focus : Option ℕ) : List TcWidget → List DrawOp
  | [] => []
  | child :: rest => child.draw focus ++ drawChildren focus rest

end

mutual

/-- The tree after drawing: text boxes that were drawn keep their scroll offsets. -/
def afterDraw : TcWidget → TcWidget
  | .mk own children =>
      if own.area.width ≤ 0 ∨ own.area.height ≤ 0 then .mk own children
      else
        .mk (match own.kind, own.buffer with
          | .textbox, some g => own.scrolled g
          | _, _ => own) (afterDrawChildren children)

def afterDrawChildren : List TcWidget → List TcWidget
  | [] => []
  | child :: rest => child.afterDraw :: afterDrawChildren rest

end

end TcWidget

/-! ## Windows -/

/-- The fields of a window that drawing and dispatching use. -/
structure TcUi where
  width : ℕ
  height : ℕ
  front : List TcUiCell
  back : List TcUiCell
  root : Option TcWidget
  focus : Option ℕ
  focusIndex : ℕ

namespace TcUi

/-- `tc_ui_resize_impl`, with allocation succeeding. -/
def resize (ui : TcUi) (width height : ℤ) : TcUi × ℤ :=
  if width < 1 ∨ height < 1 ∨ 1000 < width ∨ 1000 < height then (ui, 3)
  else
    let cells := width.toNat * height.toNat
    ({ ui with
        front := List.replicate cells ⟨0xffffffff, 0xffffffff, 0xffffffff, 255, 255⟩
        back := List.replicate cells ⟨0, 0, 0, 0, 0⟩
        width := width.toNat
        height := height.toNat }, 0)

def blank (foreground background : ℕ) : TcUiCell := ⟨32, foreground, background, 0, 1⟩

def clear (ui : TcUi) (foreground background : ℕ) : TcUi :=
  { ui with back := List.replicate (ui.width * ui.height) (blank foreground background) }

def exec (ui : TcUi) (ops : List DrawOp) : TcUi :=
  { ui with back := drawOps ui.width ui.height ui.back ops }

def put (ui : TcUi) (x y : ℤ) (codepoint foreground background : ℕ) : TcUi :=
  ui.exec [.put x y codepoint foreground background]

/-- `tc_ui_text` -/
def text (ui : TcUi) (x y : ℤ) (text : List UInt8) (foreground background : ℕ) : TcUi :=
  ui.exec (textClip x y text foreground background (ui.width - x))

/-- `tc_ui_draw` -/
def draw (ui : TcUi) : TcUi :=
  let ui := ui.clear 0xe6edf3 0x101820
  match ui.root with
  | none => ui
  | some root =>
      let root := root.layout ⟨0, 0, ui.width, ui.height⟩
      { ui.exec (root.draw ui.focus) with root := some root.afterDraw }

/-- The code points that `tc_ui_snapshot` writes for the cells of row `y`. -/
def snapshotRow (ui : TcUi) (y : ℕ) : List ℕ :=
  (List.range ui.width).filterMap fun x ↦
    let cell := cellAt ui.width ui.back x y
    if cell.width = 0 then none else some cell.shown

/-- `tc_ui_snapshot` -/
def snapshot (ui : TcUi) : List UInt8 :=
  (List.range ui.height).flatMap fun y ↦ (ui.snapshotRow y).flatMap utf8Encode ++ [10]

end TcUi

end TinyCPlus.Tui
