import TinyCPlus.Library.Machine
import TinyCPlus.Runtime.GapBuffer

/-!
# The plain editor

What the gap buffer is for: a text, a cursor in it, and the editing
operations on that pair.  Lines are separated by newline bytes, characters
start at the bytes that do not continue a UTF-8 sequence, and positions are
byte offsets.
-/

namespace TinyCPlus.Runtime

open TinyCPlus.Library

/-- A text within the limit together with a cursor inside it. -/
structure Editor where
  text : List UInt8
  cursor : ℕ
  cursor_le : cursor ≤ text.length
  text_le : text.length ≤ gapLimit

namespace Editor

/-! ## Positions in a text -/

def nextChar (t : List UInt8) (p : ℕ) : ℕ :=
  if p < t.length then
    p + 1 + ((t.drop (p + 1)).takeWhile isContinuation).length
  else p

def prevChar (t : List UInt8) (p : ℕ) : ℕ :=
  p - 1 - ((t.take p).tail.reverse.takeWhile isContinuation).length

def lineStart (t : List UInt8) (p : ℕ) : ℕ :=
  p - ((t.take p).reverse.takeWhile (· != newline)).length

def lineEnd (t : List UInt8) (p : ℕ) : ℕ :=
  p + ((t.drop p).takeWhile (· != newline)).length

/-- The number of characters of a piece of text: its first byte starts one,
and so does every later byte that continues none. -/
def charCount : List UInt8 → ℕ
  | [] => 0
  | _ :: rest => 1 + rest.countP (fun b ↦ !isContinuation b)

def line (t : List UInt8) (p : ℕ) : ℕ := (t.take p).count newline

def column (t : List UInt8) (p : ℕ) : ℕ :=
  charCount ((t.take p).drop (lineStart t p))

/-- The position `n` characters after `p`. -/
def skipChars (t : List UInt8) : ℕ → ℕ → ℕ
  | 0, p => p
  | n + 1, p => skipChars t n (nextChar t p)

/-- The position `column` characters into the line starting at `p`, or the
end of that line when it is shorter. -/
def inLine (t : List UInt8) (p column : ℕ) : ℕ :=
  min (lineEnd t p) (skipChars t column p)

/-- The offset of the start of line `n`, or the end of the text. -/
def lineOffset : List UInt8 → ℤ → ℕ
  | [], _ => 0
  | b :: rest, n =>
      if 0 < n then 1 + lineOffset rest (if b == newline then n - 1 else n)
      else 0

/-- The least position at or after `start` where `needle` occurs. -/
def leastMatch (t needle : List UInt8) (start : ℕ) : Option ℕ :=
  (List.range' start (t.length + 1 - start)).find? fun p ↦
    needle.isPrefixOf (t.drop p)

/-! ## Operations -/

def moveTo (e : Editor) (p : ℕ) : Editor where
  text := e.text
  cursor := min p e.text.length
  cursor_le := min_le_right _ _
  text_le := e.text_le

def ofText (input : List UInt8) (h : input.length ≤ gapLimit) : Editor where
  text := input
  cursor := 0
  cursor_le := Nat.zero_le _
  text_le := h

/-- Inserting leaves the editor unchanged when the text would pass the limit. -/
def insert (e : Editor) (input : List UInt8) : Editor :=
  if h : e.text.length + input.length ≤ gapLimit then
    { text := e.text.take e.cursor ++ input ++ e.text.drop e.cursor
      cursor := e.cursor + input.length
      cursor_le := by
        have hc := e.cursor_le
        simp only [List.length_append, List.length_take, List.length_drop]
        omega
      text_le := by
        have hc := e.cursor_le
        simp only [List.length_append, List.length_take, List.length_drop]
        omega }
  else e

/-- Removes the text between `p` and `q` and puts the cursor at `p`. -/
def erase (e : Editor) (p q : ℕ) (hp : p ≤ e.text.length) (hpq : p ≤ q) :
    Editor where
  text := e.text.take p ++ e.text.drop q
  cursor := p
  cursor_le := by
    rw [List.length_append, List.length_take]
    omega
  text_le := by
    have ht := e.text_le
    simp only [List.length_append, List.length_take, List.length_drop]
    omega

theorem le_nextChar (t : List UInt8) (p : ℕ) : p ≤ nextChar t p := by
  rw [nextChar]
  split <;> omega

theorem prevChar_le (t : List UInt8) (p : ℕ) : prevChar t p ≤ p := by
  rw [prevChar]
  omega

theorem lineStart_le (t : List UInt8) (p : ℕ) : lineStart t p ≤ p :=
  Nat.sub_le _ _

theorem le_lineEnd (t : List UInt8) (p : ℕ) : p ≤ lineEnd t p :=
  Nat.le_add_right _ _

def backspace (e : Editor) : Editor :=
  e.erase (prevChar e.text e.cursor) e.cursor
    ((prevChar_le _ _).trans e.cursor_le) (prevChar_le _ _)

def delete (e : Editor) : Editor :=
  e.erase e.cursor (nextChar e.text e.cursor) e.cursor_le (le_nextChar _ _)

def vertical (e : Editor) (direction : ℤ) : Editor :=
  let here := lineStart e.text e.cursor
  let column := column e.text e.cursor
  if direction < 0 then
    if here = 0 then e
    else e.moveTo (inLine e.text (lineStart e.text (here - 1)) column)
  else
    if lineEnd e.text here = e.text.length then e
    else e.moveTo (inLine e.text (lineEnd e.text here + 1) column)

/-- The end of the cursor's line, with the newline that closes it. -/
def lineStop (e : Editor) : ℕ :=
  if lineEnd e.text e.cursor < e.text.length then lineEnd e.text e.cursor + 1
  else lineEnd e.text e.cursor

theorem cursor_le_lineStop (e : Editor) : e.cursor ≤ e.lineStop := by
  have h := le_lineEnd e.text e.cursor
  rw [lineStop]
  split <;> omega

def cutLine (e : Editor) : Editor × List UInt8 :=
  let start := lineStart e.text e.cursor
  (e.erase start e.lineStop
      ((lineStart_le _ _).trans e.cursor_le)
      ((lineStart_le _ _).trans e.cursor_le_lineStop),
    (e.text.take e.lineStop).drop start)

end Editor

/-! ## The two machines -/

inductive EditorOp where
  | seek (position : ℕ)
  | insert (input : List UInt8)
  | left
  | right
  | backspace
  | delete
  | home
  | toEnd
  | vertical (direction : ℤ)
  | gotoLine (line : ℤ)
  | cutLine
  | find (needle : List UInt8) (start : ℕ)
  | text
deriving DecidableEq, Repr

inductive EditorAnswer where
  | done
  | code (value : ℤ)
  | bytes (value : List UInt8)
deriving DecidableEq, Repr

/-- What the queries answer in a state. -/
structure EditorView where
  text : List UInt8
  length : ℕ
  position : ℕ
  line : ℕ
  column : ℕ
deriving DecidableEq, Repr

def Editor.view (e : Editor) : EditorView where
  text := e.text
  length := e.text.length
  position := e.cursor
  line := Editor.line e.text e.cursor
  column := Editor.column e.text e.cursor

def TcGap.view (g : TcGap) : EditorView where
  text := g.text
  length := g.length
  position := g.position
  line := g.line
  column := g.column

/-- One call on the plain editor; `search` answers a `find`. -/
def Editor.apply (search : List UInt8 → List UInt8 → ℕ → ℤ) (e : Editor) :
    EditorOp → Editor × EditorAnswer
  | .seek position => (e.moveTo position, .done)
  | .insert input =>
      (e.insert input,
        .code (if e.text.length + input.length ≤ gapLimit then 0 else 8))
  | .left => (e.moveTo (prevChar e.text e.cursor), .done)
  | .right => (e.moveTo (nextChar e.text e.cursor), .done)
  | .backspace => (e.backspace, .done)
  | .delete => (e.delete, .done)
  | .home => (e.moveTo (lineStart e.text e.cursor), .done)
  | .toEnd => (e.moveTo (lineEnd e.text e.cursor), .done)
  | .vertical direction => (e.vertical direction, .done)
  | .gotoLine line => (e.moveTo (lineOffset e.text line), .done)
  | .cutLine => (e.cutLine.1, .bytes e.cutLine.2)
  | .find needle start => (e, .code (search e.text needle start))
  | .text => (e, .bytes e.text)

/-- One call on the gap buffer. -/
def TcGap.apply (g : TcGap) : EditorOp → TcGap × EditorAnswer
  | .seek position => (g.seek position, .done)
  | .insert input => ((g.insert input).1, .code (g.insert input).2)
  | .left => (g.left, .done)
  | .right => (g.right, .done)
  | .backspace => (g.backspace, .done)
  | .delete => (g.delete, .done)
  | .home => (g.home, .done)
  | .toEnd => (g.toEnd, .done)
  | .vertical direction => (g.vertical direction, .done)
  | .gotoLine line => (g.gotoLine line, .done)
  | .cutLine => (g.cutLine.1, .bytes g.cutLine.2)
  | .find needle start => (g, .code (g.find needle start))
  | .text => (g, .bytes g.text)

/-- The plain editor as a machine that shows its view after every call. -/
def editorMachine (search : List UInt8 → List UInt8 → ℕ → ℤ) :
    Machine Editor EditorOp (EditorAnswer × EditorView) where
  step e op :=
    ((e.apply search op).1, (e.apply search op).2, (e.apply search op).1.view)

def gapMachine : Machine TcGap EditorOp (EditorAnswer × EditorView) where
  step g op := ((g.apply op).1, (g.apply op).2, (g.apply op).1.view)

/-- The index form of a search result, `-1` for none. -/
def searchIndex : Option ℕ → ℤ
  | none => -1
  | some p => p

/-- The search that looks for every needle. -/
def findAny (t needle : List UInt8) (start : ℕ) : ℤ :=
  searchIndex (Editor.leastMatch t needle start)

/-- The search that reports an empty needle as absent. -/
def findNonempty (t needle : List UInt8) (start : ℕ) : ℤ :=
  if needle = [] then -1 else findAny t needle start

end TinyCPlus.Runtime
