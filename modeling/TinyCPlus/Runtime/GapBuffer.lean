import TinyCPlus.Library.Scan

/-!
# The gap buffer of `runtime/gapbuffer.c`

The text is `data[0..start)` followed by `data[stop..capacity)`; `stop` is the
field the source calls `end`.  Every function is the C function of the same
name, with the buffer passed and returned and with allocation succeeding.
Indices and sizes stay far below `2 ^ 64` (a text has at most 64 MiB), so they
are natural numbers.
-/

namespace TinyCPlus.Runtime

open TinyCPlus.Library

/-- The 64 MiB limit, `64u * 1024u * 1024u`. -/
def gapLimit : ℕ := 64 * 1024 * 1024

structure TcGap where
  data : List UInt8
  start : ℕ
  stop : ℕ
  capacity : ℕ
  dirty : Bool
deriving DecidableEq, Repr

/-- `memcpy(data + dst, src, n)`, with `src` the `n` bytes read. -/
def memcpy (data : List UInt8) (dst : ℕ) (src : List UInt8) : List UInt8 :=
  data.take dst ++ src ++ data.drop (dst + src.length)

/-- The `n` bytes at `data + src`. -/
def bytesAt (data : List UInt8) (src n : ℕ) : List UInt8 :=
  (data.drop src).take n

/-- `memmove(data + dst, data + src, n)`: all bytes are read before any is
written, so the two ranges may overlap. -/
def memmove (data : List UInt8) (dst src n : ℕ) : List UInt8 :=
  memcpy data dst (bytesAt data src n)

def newline : UInt8 := 10

/-- `(byte & 0xc0) == 0x80`: a UTF-8 continuation byte. -/
def isContinuation (b : UInt8) : Bool := b &&& 0xc0 == 0x80

namespace TcGap

def size (g : TcGap) : ℕ := g.capacity - (g.stop - g.start)

def byte (g : TcGap) (position : ℕ) : UInt8 :=
  g.data.getD (if position < g.start then position
    else position + g.stop - g.start) 0

def seekImpl (g : TcGap) (position : ℕ) : TcGap :=
  let position := if g.size < position then g.size else position
  if position < g.start then
    let n := g.start - position
    { g with
      data := memmove g.data (g.stop - n) position n
      start := g.start - n
      stop := g.stop - n }
  else if g.start < position then
    let n := position - g.start
    { g with
      data := memmove g.data g.start g.stop n
      start := g.start + n
      stop := g.stop + n }
  else g

/-- `none` is the `NULL` returned for an input over the limit. -/
def create (input : List UInt8) : Option TcGap :=
  if gapLimit < input.length then none
  else
    let capacity := input.length + 128
    let stop := capacity - input.length
    some
      { data := memcpy (List.replicate capacity 0) stop input
        start := 0
        stop := stop
        capacity := capacity
        dirty := false }

def length (g : TcGap) : ℕ := g.size

def position (g : TcGap) : ℕ := g.start

def seek (g : TcGap) (position : ℕ) : TcGap :=
  g.seekImpl (if g.size < position then g.size else position)

/-- The reallocation inside `tc_gap_insert`.  The bytes `malloc` leaves
unspecified are zero here; they stay inside the gap. -/
def grow (g : TcGap) (size inputLength : ℕ) : TcGap :=
  let capacity := if g.capacity * 2 < size + inputLength + 128
    then size + inputLength + 128 else g.capacity * 2
  let tail := g.capacity - g.stop
  let data := memcpy (List.replicate capacity 0) 0 (bytesAt g.data 0 g.start)
  { g with
    data := memcpy data (capacity - tail) (bytesAt g.data g.stop tail)
    stop := capacity - tail
    capacity := capacity }

def insert (g : TcGap) (input : List UInt8) : TcGap × ℤ :=
  let size := g.size
  if gapLimit - size < input.length then (g, 8)
  else
    let g := if g.stop - g.start < input.length
      then g.grow size input.length else g
    if input.length ≠ 0 then
      ({ g with
          data := memcpy g.data g.start input
          start := g.start + input.length
          dirty := true }, 0)
    else (g, 0)

def previous (g : TcGap) (position : ℕ) : ℕ :=
  if position ≠ 0 then
    scanDown (fun p ↦ isContinuation (g.byte p)) (position - 1)
  else position

def next (g : TcGap) (position : ℕ) : ℕ :=
  if position < g.size then
    scanUp (fun p ↦ isContinuation (g.byte p)) (g.size - (position + 1))
      (position + 1)
  else position

def left (g : TcGap) : TcGap := g.seekImpl (g.previous g.start)

def right (g : TcGap) : TcGap := g.seekImpl (g.next g.start)

def backspace (g : TcGap) : TcGap :=
  let start := g.previous g.start
  if start ≠ g.start then { g with start := start, dirty := true } else g

def delete (g : TcGap) : TcGap :=
  let n := g.next g.start - g.start
  { g with
    stop := g.stop + n
    dirty := if n ≠ 0 then true else g.dirty }

def lineStart (g : TcGap) (p : ℕ) : ℕ :=
  scanDown (fun p ↦ g.byte (p - 1) != newline) p

def lineEnd (g : TcGap) (p : ℕ) : ℕ :=
  scanUp (fun p ↦ g.byte p != newline) (g.size - p) p

def home (g : TcGap) : TcGap := g.seekImpl (g.lineStart g.start)

def toEnd (g : TcGap) : TcGap := g.seekImpl (g.lineEnd g.start)

def line (g : TcGap) : ℕ :=
  (List.range g.start).foldl
    (fun line p ↦ if g.byte p == newline then line + 1 else line) 0

/-- `while (p < g->start) { p = next(p); column++; }`.  Every turn moves `p`
up, so `g.start - p` turns are enough fuel (`columnLoop_eq`). -/
def columnLoop (g : TcGap) : ℕ → ℕ → ℕ → ℕ
  | 0, _, column => column
  | fuel + 1, p, column =>
      if p < g.start then columnLoop g fuel (g.next p) (column + 1)
      else column

def column (g : TcGap) : ℕ :=
  let p := g.lineStart g.start
  g.columnLoop (g.start - p) p 0

/-- `for (i = 0; i < column && p < end; i++) p = next(p);` -/
def advance (g : TcGap) (stop : ℕ) : ℕ → ℕ → ℕ
  | 0, p => p
  | column + 1, p => if p < stop then advance g stop column (g.next p) else p

def vertical (g : TcGap) (direction : ℤ) : TcGap :=
  let p := g.lineStart g.start
  let column := g.column
  if direction < 0 then
    if p = 0 then g
    else
      let p := g.lineStart (p - 1)
      g.seekImpl (g.advance (g.lineEnd p) column p)
  else
    let p := g.lineEnd p
    if p = g.size then g
    else
      let p := p + 1
      g.seekImpl (g.advance (g.lineEnd p) column p)

/-- `while (p < n && current < line) if (byte(p++) == '\n') current++;`, with
the first argument the distance `n - p`. -/
def gotoLoop (g : TcGap) (line : ℤ) : ℕ → ℕ → ℤ → ℕ
  | 0, p, _ => p
  | n + 1, p, current =>
      if current < line then
        gotoLoop g line n (p + 1)
          (if g.byte p == newline then current + 1 else current)
      else p

def gotoLine (g : TcGap) (line : ℤ) : TcGap :=
  g.seekImpl (g.gotoLoop line g.size 0 0)

def text (g : TcGap) : List UInt8 :=
  bytesAt g.data 0 g.start ++ bytesAt g.data g.stop (g.capacity - g.stop)

/-- The search loop of `tc_gap_find`, with the first argument the number of
positions `p` with `p <= n - needle.length` that remain. -/
def findLoop (g : TcGap) (needle : List UInt8) : ℕ → ℕ → ℤ
  | 0, _ => -1
  | m + 1, p =>
      let j := scanUp (fun j ↦ g.byte (p + j) == needle.getD j 0)
        needle.length 0
      if j = needle.length then p else findLoop g needle m (p + 1)

def find (g : TcGap) (needle : List UInt8) (start : ℕ) : ℤ :=
  let n := g.size
  if needle.length = 0 ∨ n < start ∨ n < needle.length then -1
  else g.findLoop needle (n - needle.length + 1 - start) start

def cutLine (g : TcGap) : TcGap × List UInt8 :=
  let start := g.lineStart g.start
  let stop := g.lineEnd g.start
  let stop := if stop < g.size then stop + 1 else stop
  let result := (List.range (stop - start)).map fun i ↦ g.byte (start + i)
  let g := g.seekImpl start
  ({ g with
      stop := g.stop + (stop - start)
      dirty := if start < stop then true else g.dirty }, result)

end TcGap

end TinyCPlus.Runtime
