import TinyCPlus.Tui.Widget

/-!
# Events

`tc_ui_dispatch` resizes the window, moves the focus, edits the focused text box or
tells which callback is to be run.  Pointers to widgets are their addresses.
-/

namespace TinyCPlus.Tui

open TinyCPlus.Runtime

/-- The fields of an event that dispatching reads. -/
structure UiEvent where
  kind : ℤ
  key : ℤ
  x : ℤ
  y : ℤ
  width : ℤ
  height : ℤ
  codepoint : ℕ
deriving DecidableEq, Repr

def WidgetFields.withBuffer (g : TcGap) (own : WidgetFields) : WidgetFields :=
  { own with buffer := some g }

/-- `tc_widget_text`: a text box gets a new buffer. -/
def WidgetFields.withText (text : List UInt8) (own : WidgetFields) : WidgetFields :=
  { own with text := text, buffer := own.buffer.bind fun _ ↦ TcGap.create text }

def WidgetFields.focusable (own : WidgetFields) : Bool :=
  own.kind = .button ∨ own.kind = .textbox

namespace TcWidget

/-- The fields of all widgets of the tree. -/
def fields (w : TcWidget) : List WidgetFields := w.subtrees.map own

/-- The widget at an address. -/
def find (w : TcWidget) (address : ℕ) : Option WidgetFields :=
  w.fields.find? (·.address = address)

mutual

/-- `tc_widget_focus_at`: the address of the widget, and `*index`. -/
def focusAt (target : ℕ) : TcWidget → ℕ → Option ℕ × ℕ
  | .mk own children, index =>
      if own.focusable then
        if index = target then (some own.address, index + 1)
        else focusAtChildren target children (index + 1)
      else focusAtChildren target children index

def focusAtChildren (target : ℕ) : List TcWidget → ℕ → Option ℕ × ℕ
  | [], index => (none, index)
  | child :: rest, index =>
      match child.focusAt target index with
      | (some address, index) => (some address, index)
      | (none, index) => focusAtChildren target rest index

end

mutual

/-- `tc_widget_hit`: the last child that is hit, or the widget itself. -/
def hit (x y : ℤ) : TcWidget → Option WidgetFields
  | .mk own children =>
      if x < own.area.x ∨ own.area.x + own.area.width ≤ x ∨ y < own.area.y ∨
          own.area.y + own.area.height ≤ y then none
      else
        match hitChildren x y children none with
        | some found => some found
        | none => if own.focusable then some own else none

def hitChildren (x y : ℤ) : List TcWidget → Option WidgetFields → Option WidgetFields
  | [], last => last
  | child :: rest, last => hitChildren x y rest ((child.hit x y).or last)

end

mutual

/-- Changes the fields of the widget at an address. -/
def update (address : ℕ) (f : WidgetFields → WidgetFields) : TcWidget → TcWidget
  | .mk own children =>
      .mk (if own.address = address then f own else own) (updateChildren address f children)

def updateChildren (address : ℕ) (f : WidgetFields → WidgetFields) :
    List TcWidget → List TcWidget
  | [] => []
  | child :: rest => child.update address f :: updateChildren address f rest

end

/-- The loop of the Tab key over the widgets that can have the focus.  There are no more
of them than widgets, so the fuel is not used up. -/
def tabTarget (root : TcWidget) (focus : Option ℕ) : ℕ → ℕ → ℕ
  | 0, target => target
  | fuel + 1, target =>
      match (root.focusAt target 0).1 with
      | none => target
      | some candidate =>
          if some candidate = focus then target else tabTarget root focus fuel (target + 1)

end TcWidget

/-- What a key does to the buffer of a text box of the given height. -/
def editKey (g : TcGap) (height key : ℤ) (cp : ℕ) : TcGap × ℤ :=
  if key = 1001 then (g.left, 0)
  else if key = 1002 then (g.right, 0)
  else if key = 1003 then (g.vertical (-1), 0)
  else if key = 1004 then (g.vertical 1, 0)
  else if key = 1005 then (g.home, 0)
  else if key = 1006 then (g.toEnd, 0)
  else if key = 1008 ∨ key = 1009 then
    ((TcGap.vertical · (if key = 1008 then -1 else 1))^[height.toNat] g, 0)
  else if key = 8 ∨ key = 127 then (g.backspace, 0)
  else if key = 1007 then (g.delete, 0)
  else if key = 13 ∨ key = 10 then if 1 < height then g.insert [10] else (g, 0)
  else if 32 ≤ cp ∧ cp ≠ 127 then g.insert (utf8Encode cp)
  else (g, 0)

namespace TcUi

def updateWidget (ui : TcUi) (address : ℕ) (f : WidgetFields → WidgetFields) : TcUi :=
  { ui with root := ui.root.map (·.update address f) }

/-- The fields of the widget that has the focus. -/
def focused (ui : TcUi) : Option WidgetFields :=
  ui.root.bind fun root ↦ ui.focus.bind root.find

def dispatchTab (ui : TcUi) (root : TcWidget) : TcUi :=
  let target := root.tabTarget ui.focus (root.subtrees.length + 1) 0
  match (root.focusAt (target + 1) 0).1 with
  | some next => { ui with focusIndex := target + 1, focus := some next }
  | none => { ui with focusIndex := 0, focus := (root.focusAt 0 0).1 }

def dispatchMouse (ui : TcUi) (root : TcWidget) (x y : ℤ) : TcUi × Option ℕ :=
  match root.hit x y with
  | none => (ui, none)
  | some w =>
      ({ ui with focus := some w.address },
        if w.kind = .button ∧ w.callback then some w.address else none)

/-- What a key other than Tab does to the focused widget. -/
def dispatchKey (ui : TcUi) (w : WidgetFields) (key : ℤ) (cp : ℕ) : TcUi × ℤ × Option ℕ :=
  if w.kind = .button ∧ (key = 13 ∨ key = 32 ∨ key = 10) then
    (ui, 0, if w.callback then some w.address else none)
  else
    match w.kind, w.buffer with
    | .textbox, some g =>
        let edited := editKey g w.area.height key cp
        (ui.updateWidget w.address (.withBuffer edited.1), edited.2, none)
    | _, _ => (ui, 0, none)

/-- `tc_ui_dispatch`: the window, the error code and the widget whose callback is run. -/
def dispatch (ui : TcUi) (e : UiEvent) : TcUi × ℤ × Option ℕ :=
  if e.kind = 2 then
    let resized := ui.resize e.width e.height
    (resized.1, resized.2, none)
  else
    match ui.root with
    | none => (ui, 0, none)
    | some root =>
        if e.kind = 4 then
          let clicked := ui.dispatchMouse root e.x e.y
          (clicked.1, 0, clicked.2)
        else if e.kind ≠ 1 then (ui, 0, none)
        else if e.key = 9 then (ui.dispatchTab root, 0, none)
        else
          match ui.focused with
          | none => (ui, 0, none)
          | some w => ui.dispatchKey w e.key e.codepoint

end TcUi

end TinyCPlus.Tui
