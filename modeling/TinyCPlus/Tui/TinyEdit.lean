import TinyCPlus.Runtime.GapDirty
import TinyCPlus.Tui.Dispatch

/-!
# The main loop of `apps/tinyedit.tc`

One turn of the loop draws the window, takes an event and handles it.  The widgets are
those that `main` creates, and `disk` is the text that was last read from the file or
written to it.
-/

namespace TinyCPlus.Tui

open TinyCPlus.Runtime

/-- The bytes of a string literal. -/
def bytes (s : String) : List UInt8 := s.toList.flatMap String.utf8EncodeChar

/-- An event, and the result of the save if the event asks for one. -/
structure EditorInput where
  event : UiEvent
  saveError : ℤ

structure TinyEdit where
  ui : TcUi
  clipboard : List UInt8
  confirmQuit : Bool
  promptMode : ℤ
  disk : List UInt8

/-! ## `String.parseInt` -/

def isBlank (b : UInt8) : Bool := b = 32 ∨ (9 ≤ b ∧ b ≤ 13)

/-- `strtoll` on digits: their value, or `none` where there is none. -/
def digitsValue (digits : List UInt8) : Option ℕ :=
  if digits = [] then none
  else if digits.all fun b ↦ 48 ≤ b ∧ b ≤ 57 then
    some (digits.foldl (fun n b ↦ 10 * n + (b.toNat - 48)) 0)
  else none

/-- `String.parseInt`; the text ends at its first zero byte. -/
def parseInt (text : List UInt8) : Option ℤ :=
  let s := (text.takeWhile (· ≠ 0)).dropWhile isBlank
  let value : Option ℤ :=
    match s with
    | 45 :: digits => (digitsValue digits).map fun n ↦ -n
    | 43 :: digits => (digitsValue digits).map fun n ↦ n
    | digits => (digitsValue digits).map fun n ↦ n
  value.filter fun n ↦ -(2 ^ 63) ≤ n ∧ n < 2 ^ 63

namespace TinyEdit

/-! ## The widgets -/

def columnAt : ℕ := 0
def titleAt : ℕ := 1
def textAt : ℕ := 2
def statusAt : ℕ := 3
def promptAt : ℕ := 4

def widgets (path initial : List UInt8) : TcWidget :=
  .mk (.create columnAt .column [] 0 0)
    [.mk (.create titleAt .label path 0 1) [], .mk (.create textAt .textbox initial 0 0) [],
      .mk (.create statusAt .label (bytes
        "Ctrl-S Save | Ctrl-Q Quit | Ctrl-F Find | Ctrl-G Line | Ctrl-X Cut | Ctrl-U Paste") 0 1) [],
      .mk (.create promptAt .textbox [] 0 1) []]

/-- The state ahead of the loop, in a window of the given size. -/
def start (width height : ℕ) (path initial : List UInt8) : TinyEdit where
  ui :=
    { width := width
      height := height
      front := List.replicate (width * height) ⟨0xffffffff, 0xffffffff, 0xffffffff, 255, 255⟩
      back := List.replicate (width * height) ⟨0, 0, 0, 0, 0⟩
      root := some (widgets path initial)
      focus := some textAt
      focusIndex := 0 }
  clipboard := []
  confirmQuit := false
  promptMode := 0
  disk := initial

/-- The buffer of the text box at an address. -/
def bufferAt (s : TinyEdit) (address : ℕ) : Option TcGap :=
  s.ui.root.bind fun root ↦ (root.find address).bind (·.buffer)

/-- `text.buffer()` -/
def buffer (s : TinyEdit) : Option TcGap := s.bufferAt textAt

/-- Changes the buffer of the text. -/
def setBuffer (s : TinyEdit) (g : TcGap) : TinyEdit :=
  { s with ui := s.ui.updateWidget textAt (.withBuffer g) }

def setText (s : TinyEdit) (address : ℕ) (text : List UInt8) : TinyEdit :=
  { s with ui := s.ui.updateWidget address (.withText text) }

def status (s : TinyEdit) (text : String) : TinyEdit := s.setText statusAt (bytes text)

def focus (s : TinyEdit) (address : ℕ) : TinyEdit :=
  { s with ui := { s.ui with focus := some address } }

/-! ## One turn -/

/-- `buffer.find(query, position + 1)`, and from the start if that finds nothing. -/
def findNext (g : TcGap) (query : List UInt8) : ℤ :=
  let found := g.find query (g.position + 1)
  if found < 0 then g.find query 0 else found

/-- Ctrl-S -/
def save (s : TinyEdit) (g : TcGap) (saveError : ℤ) : TinyEdit :=
  if saveError = 0 then
    { s.setBuffer g.clean with disk := g.text }.status "Saved."
  else s.status "Save failed. The buffer remains open."

/-- Enter in the prompt: a search or a line number. -/
def enter (s : TinyEdit) (g : TcGap) (query : List UInt8) : TinyEdit :=
  if s.promptMode = 6 then
    let found := findNext g query
    if 0 ≤ found then (s.setBuffer (g.seek found.toNat)).status "Match found."
    else s.status "No match."
  else
    match parseInt query with
    | some line =>
        if 0 < line then
          -- The line number is cut to 32 bits on the way to `tc_gap_goto_line`.
          (s.setBuffer (g.gotoLine ((line - 1).bmod (2 ^ 32)))).status "Moved to line."
        else s.status "Invalid line number."
    | none => s.status "Invalid line number."

/-- The branches of the loop for a key event other than Ctrl-Q, and `none` where the event
goes on to the window. -/
def key (s : TinyEdit) (g prompt : TcGap) (input : EditorInput) : Option TinyEdit :=
  let key := input.event.key
  if key = 19 then some (s.save g input.saveError)
  else if key = 6 ∨ key = 7 then
    let s := ({ s with promptMode := key }.setText promptAt []).focus promptAt
    some (if key = 6 then s.status "Find: type text below, then Enter. Esc cancels."
      else s.status "Go to line: enter a line number, then Enter.")
  else if s.promptMode ≠ 0 ∧ key = 27 then
    some ({ s with promptMode := 0 }.focus textAt)
  else if s.promptMode ≠ 0 ∧ (key = 13 ∨ key = 10) then
    some ({ s.enter g prompt.text with promptMode := 0 }.focus textAt)
  else if s.promptMode = 0 ∧ key = 24 then
    let cut := g.cutLine
    some (({ s.setBuffer cut.1 with clipboard := cut.2 }).status "Line cut. Ctrl-U pastes.")
  else if s.promptMode = 0 ∧ key = 21 then
    let pasted := g.insert s.clipboard
    some (if pasted.2 ≠ 0 then (s.setBuffer pasted.1).status "Unable to paste."
      else s.setBuffer pasted.1)
  else none

/-- The end of the loop body. -/
def toWindow (s : TinyEdit) (event : UiEvent) : TinyEdit :=
  let dispatched := s.ui.dispatch event
  let s := { s with ui := dispatched.1 }
  if dispatched.2.1 ≠ 0 then s.status "Unable to apply event." else s

/-- A turn of the loop; the flag tells that Ctrl-Q has left it.  The buffers of the two
text boxes are never missing (`TinyEdit.Safe.turn`). -/
def turn (s : TinyEdit) (input : EditorInput) : TinyEdit × Bool :=
  let s := { s with ui := s.ui.draw }
  match s.buffer, s.bufferAt promptAt with
  | some g, some prompt =>
      if input.event.kind = 1 then
        if input.event.key = 17 then
          if g.dirty = false ∨ s.confirmQuit then (s, true)
          else
            ({ s with confirmQuit := true }.status
              "Unsaved changes. Ctrl-S saves; press Ctrl-Q again to discard.", false)
        else
          let s := { s with confirmQuit := false }
          ((s.key g prompt input).getD (s.toWindow input.event), false)
      else (s.toWindow input.event, false)
  | _, _ => (s, false)

/-- The loop over the given events: the state, and whether Ctrl-Q has left the loop. -/
def run (s : TinyEdit) : List EditorInput → TinyEdit × Bool
  | [] => (s, false)
  | input :: rest => if (s.turn input).2 then s.turn input else (s.turn input).1.run rest

end TinyEdit

end TinyCPlus.Tui
