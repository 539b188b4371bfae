import TinyCPlus.Library.LinkedForest
import TinyCPlus.Library.Transitions
import TinyCPlus.Tui.Dispatch

/-!
# Widgets in memory

The widgets that were created and are not freed yet, by their addresses, with their
links: `children` are the widgets from `children` to `last`, linked by `next`.  A block
that is freed again is in `freed` again.
-/

namespace TinyCPlus.Tui

open TinyCPlus.Library

/-- The value of a kind in the source. -/
def WidgetKind.number : WidgetKind → ℕ
  | .label => 1
  | .button => 2
  | .textbox => 3
  | .panel => 4
  | .row => 5
  | .column => 6
  | .stack => 7

structure Node where
  own : WidgetFields
  parent : Option ℕ
  children : List ℕ

def Node.links (n : Node) : Links ℕ := ⟨n.parent, n.children⟩

/-- The links of a window to widgets. -/
structure UiWindow where
  root : Option ℕ
  focus : Option ℕ
  focusIndex : ℕ

structure UiState where
  nodes : ℕ → Option Node
  next : ℕ
  freed : List ℕ
  window : Option UiWindow

namespace UiState

/-- A window that was just opened. -/
def opened : UiState := ⟨fun _ ↦ none, 0, [], some ⟨none, none, 0⟩⟩

def links (s : UiState) (a : ℕ) : Option (Links ℕ) := (s.nodes a).map Node.links

def parentOf (s : UiState) (a : ℕ) : Option ℕ := (s.nodes a).bind Node.parent

def live (s : UiState) (a : ℕ) : Bool := (s.nodes a).isSome

def modify (s : UiState) (a : ℕ) (f : Node → Node) : UiState :=
  { s with nodes := Function.update s.nodes a ((s.nodes a).map f) }

/-- `free` -/
def release (s : UiState) (a : ℕ) : UiState :=
  { s with nodes := Function.update s.nodes a none, freed := s.freed ++ [a] }

def create (s : UiState) (kind : WidgetKind) (text : List UInt8) (width height : ℤ) : UiState :=
  { s with
    nodes := Function.update s.nodes s.next
      (some ⟨.create s.next kind text width height, none, []⟩)
    next := s.next + 1 }

/-- `tc_widget_free`.  The depth of a tree is the fuel that it takes. -/
def free : ℕ → UiState → ℕ → UiState
  | 0, s, _ => s
  | fuel + 1, s, w =>
      match s.nodes w with
      | none => s.release w
      | some n => (n.children.foldl (free fuel) s).release w

/-- No tree is deeper than there were widgets. -/
def freeWidget (s : UiState) (w : ℕ) : UiState := free (s.next + 1) s w

def destroy (s : UiState) (w : ℕ) : UiState :=
  if s.parentOf w = none then s.freeWidget w else s

/-- The loop of `tc_widget_add` over the ancestors. -/
def hasAncestor (links : ℕ → Option (Links ℕ)) (c : ℕ) : ℕ → Option ℕ → Bool
  | 0, _ => false
  | _ + 1, none => false
  | fuel + 1, some a => a = c || hasAncestor links c fuel ((links a).bind Links.parent)

/-- The widget is `c` or below it. -/
def below (s : UiState) (c a : ℕ) : Bool := hasAncestor s.links c (s.next + 1) (some a)

/-- `c` as a new child of `p`. -/
def linked (s : UiState) (p c : ℕ) : UiState :=
  (s.modify c fun n ↦ { n with parent := some p }).modify p
    fun n ↦ { n with children := n.children ++ [c] }

/-- `tc_widget_add`, with its error code. -/
def add (s : UiState) (p c : ℕ) : UiState × ℤ :=
  match s.nodes p, s.nodes c with
  | some parent, some child =>
      if child.parent ≠ none ∨ parent.own.kind.number < 4 ∨ s.below c p then (s, 1)
      else (s.linked p c, 0)
  | _, _ => (s, 1)

def onClick (s : UiState) (w : ℕ) (invoke : Bool) : UiState :=
  s.modify w fun n ↦ { n with own := { n.own with callback := invoke } }

/-- `tc_widget_focus_at`: the widget, and `*index`. -/
def focusAt (nodes : ℕ → Option Node) (target : ℕ) : ℕ → ℕ → ℕ → Option ℕ × ℕ
  | 0, _, index => (none, index)
  | fuel + 1, w, index =>
      match nodes w with
      | none => (none, index)
      | some n =>
          if n.own.focusable ∧ index = target then (some w, index + 1)
          else
            n.children.foldl
              (fun found child ↦
                if found.1.isSome then found else focusAt nodes target fuel child found.2)
              (none, if n.own.focusable then index + 1 else index)

/-- The focusable widget of the given index below `root`. -/
def focusable (s : UiState) (root target : ℕ) : Option ℕ :=
  (focusAt s.nodes target (s.next + 1) root 0).1

/-- `tc_widget_hit` -/
def hit (nodes : ℕ → Option Node) (x y : ℤ) : ℕ → ℕ → Option ℕ
  | 0, _ => none
  | fuel + 1, w =>
      match nodes w with
      | none => none
      | some n =>
          let area := n.own.area
          if x < area.x ∨ area.x + area.width ≤ x ∨ y < area.y ∨ area.y + area.height ≤ y then none
          else
            match n.children.foldl (fun last child ↦ (hit nodes x y fuel child).or last) none with
            | some found => some found
            | none => if n.own.focusable then some w else none

/-! ## The window -/

def setFocus (s : UiState) (widget : Option ℕ) : UiState :=
  { s with window := s.window.map fun ui ↦ { ui with focus := widget } }

/-- `tc_ui_content` -/
def content (s : UiState) (ui : UiWindow) (root : Option ℕ) : UiState :=
  if (root.bind s.parentOf) ≠ none then s
  else
    let kept :=
      match ui.root with
      | some old => if ui.root ≠ root then s.freeWidget old else s
      | none => s
    { kept with window := some ⟨root, root.bind (kept.focusable · 0), 0⟩ }

/-- `tc_ui_draw` gives the widgets their areas. -/
def draw (s : UiState) (areas : ℕ → Rect) : UiState :=
  { s with
    nodes := fun a ↦ (s.nodes a).map fun n ↦ { n with own := { n.own with area := areas a } } }

/-- The loop of the Tab key.  There are no more focusable widgets than there were widgets. -/
def tabTarget (s : UiState) (root : ℕ) (focus : Option ℕ) : ℕ → ℕ → ℕ
  | 0, target => target
  | fuel + 1, target =>
      match s.focusable root target with
      | none => target
      | some candidate =>
          if some candidate = focus then target else tabTarget s root focus fuel (target + 1)

def dispatchTab (s : UiState) (ui : UiWindow) (root : ℕ) : UiState :=
  let target := s.tabTarget root ui.focus (s.next + 1) 0
  match s.focusable root (target + 1) with
  | some next => { s with window := some { ui with focus := some next, focusIndex := target + 1 } }
  | none => { s with window := some { ui with focus := s.focusable root 0, focusIndex := 0 } }

def dispatchMouse (s : UiState) (root : ℕ) (x y : ℤ) : UiState × Option ℕ :=
  match hit s.nodes x y (s.next + 1) root with
  | none => (s, none)
  | some w =>
      let clicked := (s.nodes w).any fun n ↦ n.own.kind = .button ∧ n.own.callback
      (s.setFocus (some w), if clicked then some w else none)

/-- What a key other than Tab does to the focused widget. -/
def dispatchKey (s : UiState) (w : ℕ) (n : Node) (key : ℤ) (cp : ℕ) : UiState × ℤ × Option ℕ :=
  if n.own.kind = .button ∧ (key = 13 ∨ key = 32 ∨ key = 10) then
    (s, 0, if n.own.callback then some w else none)
  else
    match n.own.kind, n.own.buffer with
    | .textbox, some g =>
        let edited := editKey g n.own.area.height key cp
        (s.modify w fun n ↦ { n with own := n.own.withBuffer edited.1 }, edited.2, none)
    | _, _ => (s, 0, none)

/-- `tc_ui_dispatch`: the error code, and the widget whose callback is run.  What a
callback does comes after it, as operations of its own; a window that is resized keeps
its widgets. -/
def dispatch (s : UiState) (ui : UiWindow) (e : UiEvent) : UiState × ℤ × Option ℕ :=
  if e.kind = 2 then
    (s, if e.width < 1 ∨ e.height < 1 ∨ 1000 < e.width ∨ 1000 < e.height then 3 else 0, none)
  else
    match ui.root with
    | some root =>
        if e.kind = 4 then
          let clicked := s.dispatchMouse root e.x e.y
          (clicked.1, 0, clicked.2)
        else if e.kind ≠ 1 then (s, 0, none)
        else if e.key = 9 then (s.dispatchTab ui root, 0, none)
        else keyOfFocus
    | none => if e.kind ≠ 1 then (s, 0, none) else keyOfFocus
where
  keyOfFocus : UiState × ℤ × Option ℕ :=
    match ui.focus with
    | none => (s, 0, none)
    | some w =>
        match s.nodes w with
        | none => (s, 0, none)
        | some n => s.dispatchKey w n e.key e.codepoint

/-- `tc_ui_destroy` -/
def close (s : UiState) (ui : UiWindow) : UiState :=
  let kept :=
    match ui.root with
    | some root => s.freeWidget root
    | none => s
  { kept with window := none }

end UiState

/-! ## Runs -/

/-- The operations of a program on its widgets and its window. -/
inductive UiOp where
  | create (kind : WidgetKind) (text : List UInt8) (width height : ℤ)
  | add (parent child : ℕ)
  | content (root : Option ℕ)
  | focus (widget : Option ℕ)
  | onClick (widget : ℕ) (invoke : Bool)
  | destroy (widget : ℕ)
  | draw (areas : ℕ → Rect)
  | dispatch (event : UiEvent)
  | close

namespace UiState

/-- The widgets of the operation are live, and so is the window if it is on the window. -/
def takes (s : UiState) : UiOp → Bool
  | .create .. => true
  | .add p c => s.live p && s.live c
  | .content root => s.window.isSome && root.all s.live
  | .focus widget => s.window.isSome && widget.all s.live
  | .onClick w _ => s.live w
  | .destroy w => s.live w
  | .draw _ => s.window.isSome
  | .dispatch _ => s.window.isSome
  | .close => s.window.isSome

/-- The state after an operation. -/
def exec (s : UiState) : UiOp → UiState
  | .create kind text width height => s.create kind text width height
  | .add p c => (s.add p c).1
  | .content root => s.window.elim s fun ui ↦ s.content ui root
  | .focus widget => s.setFocus widget
  | .onClick w invoke => s.onClick w invoke
  | .destroy w => s.destroy w
  | .draw areas => s.draw areas
  | .dispatch event => s.window.elim s fun ui ↦ (s.dispatch ui event).1
  | .close => s.window.elim s fun ui ↦ s.close ui

end UiState

/-- The runs of operations on live widgets. -/
def uiRuns : Transitions UiState UiOp where
  step s op := if s.takes op then some (s.exec op) else none

end TinyCPlus.Tui
