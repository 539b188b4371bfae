import TinyCPlus.Runtime.GapBuffer

/-!
# The cell buffers of `runtime/tui.c`

A window holds two buffers of cells, row after row.  What is drawn goes to `back`
by the puts of single glyphs and by the caret; a drawing function is the list of
the operations it performs, in order, and an operation is the list of its stores.
Code points and colours are natural numbers, and coordinates are integers.
-/

namespace TinyCPlus.Tui

/-! ## UTF-8 -/

/-- The bits of the leading byte and the number of continuation bytes. -/
def utf8Lead (first : ℕ) : Option (ℕ × ℕ) :=
  if 0xc2 ≤ first ∧ first ≤ 0xdf then some (first &&& 31, 1)
  else if 0xe0 ≤ first ∧ first ≤ 0xef then some (first &&& 15, 2)
  else if 0xf0 ≤ first ∧ first ≤ 0xf4 then some (first &&& 7, 3)
  else none

/-- The loop over the continuation bytes; `none` where one of them is none. -/
def utf8Continue (s : List UInt8) : ℕ → ℕ → ℕ → Option ℕ
  | 0, _, cp => some cp
  | n + 1, p, cp =>
      let next := s.getD p 0
      if next &&& 0xc0 ≠ 0x80 then none
      else utf8Continue s n (p + 1) (cp <<< 6 ||| (next &&& 63).toNat)

/-- The code point at `position`, and the position behind it. -/
def utf8Decode (s : List UInt8) (position : ℕ) : ℕ × ℕ :=
  if s.length ≤ position then (0, position)
  else
    let first := (s.getD position 0).toNat
    let p := position + 1
    if first < 128 then (first, p)
    else
      match utf8Lead first with
      | none => (0xfffd, p)
      | some (bits, continuation) =>
          if s.length < p + continuation then (0xfffd, p)
          else
            match utf8Continue s continuation p bits with
            | none => (0xfffd, p)
            | some cp =>
                if (continuation = 1 ∧ cp < 128) ∨ (continuation = 2 ∧ cp < 2048) ∨
                    (continuation = 3 ∧ cp < 65536) ∨ 0x10ffff < cp ∨
                    (0xd800 ≤ cp ∧ cp ≤ 0xdfff) then (0xfffd, p)
                else (cp, p + continuation)

/-- The code point that is written for `cp`. -/
def utf8Valid (cp : ℕ) : ℕ :=
  if 0x10ffff < cp ∨ (0xd800 ≤ cp ∧ cp ≤ 0xdfff) then 0xfffd else cp

def utf8Encode (cp : ℕ) : List UInt8 :=
  let cp := utf8Valid cp
  let continuation (n : ℕ) := UInt8.ofNat (0x80 ||| (n &&& 63))
  if cp < 128 then [UInt8.ofNat cp]
  else if cp < 2048 then [UInt8.ofNat (0xc0 ||| cp >>> 6), continuation cp]
  else if cp < 65536 then
    [UInt8.ofNat (0xe0 ||| cp >>> 12), continuation (cp >>> 6), continuation cp]
  else
    [UInt8.ofNat (0xf0 ||| cp >>> 18), continuation (cp >>> 12), continuation (cp >>> 6),
      continuation cp]

/-- Decoding moves on. -/
theorem utf8Decode_lt {s : List UInt8} {p : ℕ} (h : p < s.length) : p < (utf8Decode s p).2 := by
  rw [utf8Decode, if_neg (not_le.mpr h)]
  dsimp only
  split
  · exact Nat.lt_succ_self p
  · split
    · exact Nat.lt_succ_self p
    · split
      · exact Nat.lt_succ_self p
      · split
        · exact Nat.lt_succ_self p
        · split
          · exact Nat.lt_succ_self p
          · exact Nat.lt_add_right _ (Nat.lt_succ_self p)

/-! ## Cells -/

/-- The columns a code point takes, one or two. -/
def uiWidth (cp : ℕ) : ℕ :=
  if 0x1100 ≤ cp ∧ (cp ≤ 0x115f ∨ (0x2329 ≤ cp ∧ cp ≤ 0x232a) ∨ (0x2e80 ≤ cp ∧ cp ≤ 0xa4cf) ∨
      (0xac00 ≤ cp ∧ cp ≤ 0xd7a3) ∨ (0xf900 ≤ cp ∧ cp ≤ 0xfaff) ∨ (0xfe10 ≤ cp ∧ cp ≤ 0xfe19) ∨
      (0xfe30 ≤ cp ∧ cp ≤ 0xfe6f) ∨ (0xff00 ≤ cp ∧ cp ≤ 0xff60) ∨
      (0xffe0 ≤ cp ∧ cp ≤ 0xffe6) ∨ (0x1f300 ≤ cp ∧ cp ≤ 0x1faff) ∨
      (0x20000 ≤ cp ∧ cp ≤ 0x3fffd)) then 2
  else 1

theorem uiWidth_cases (cp : ℕ) : uiWidth cp = 1 ∨ uiWidth cp = 2 := by
  rw [uiWidth]
  split_ifs
  · exact .inr rfl
  · exact .inl rfl

structure TcUiCell where
  codepoint : ℕ
  foreground : ℕ
  background : ℕ
  attributes : ℕ
  width : ℕ
deriving DecidableEq, Repr

/-- The code point that is written for a cell, `cell->codepoint ? cell->codepoint : ' '`. -/
def TcUiCell.shown (cell : TcUiCell) : ℕ := if cell.codepoint = 0 then 32 else cell.codepoint

/-- One access to `back` that writes: the index and what becomes of the cell. -/
structure Store where
  index : ℕ
  update : TcUiCell → TcUiCell

/-- `tc_ui_put` and the recolouring of the caret's cell. -/
inductive DrawOp where
  | put (x y : ℤ) (codepoint foreground background : ℕ)
  | caret (x y : ℤ)
deriving DecidableEq, Repr

/-- The index of a cell, `y * ui->width + x`. -/
def cellIndex (columns : ℕ) (x y : ℤ) : ℕ := (y * columns + x).toNat

/-- What `tc_ui_put` writes in a window of `columns` times `rows` cells. -/
def putStores (columns rows : ℕ) (x y : ℤ) (codepoint foreground background : ℕ) : List Store :=
  let width := uiWidth codepoint
  if x < 0 ∨ columns ≤ x ∨ y < 0 ∨ rows ≤ y then []
  else
    let codepoint :=
      if codepoint < 32 ∨ (127 ≤ codepoint ∧ codepoint < 160) then 32 else codepoint
    -- A wide glyph has no room in the last column.
    let cut := width = 2 ∧ columns ≤ x + 1
    let codepoint := if cut then 32 else codepoint
    let width := if cut then 1 else width
    let cell : TcUiCell := ⟨codepoint, foreground, background, 0, width⟩
    if width = 2 then
      [⟨cellIndex columns x y, fun _ ↦ cell⟩,
        ⟨cellIndex columns x y + 1, fun _ ↦ { cell with codepoint := 0, width := 0 }⟩]
    else [⟨cellIndex columns x y, fun _ ↦ cell⟩]

def DrawOp.stores (columns rows : ℕ) : DrawOp → List Store
  | .put x y codepoint foreground background =>
      putStores columns rows x y codepoint foreground background
  | .caret x y =>
      [⟨cellIndex columns x y,
        fun cell ↦ { cell with foreground := 0x101820, background := 0xe6edf3 }⟩]

def Store.apply (cells : List TcUiCell) (s : Store) : List TcUiCell :=
  cells.modify s.index s.update

/-- The cells after one operation. -/
def DrawOp.apply (columns rows : ℕ) (cells : List TcUiCell) (op : DrawOp) : List TcUiCell :=
  (op.stores columns rows).foldl Store.apply cells

/-- The cells after a list of operations. -/
def drawOps (columns rows : ℕ) (cells : List TcUiCell) (ops : List DrawOp) : List TcUiCell :=
  ops.foldl (DrawOp.apply columns rows) cells

/-- The cell at column `x` of row `y`. -/
def cellAt (columns : ℕ) (cells : List TcUiCell) (x y : ℕ) : TcUiCell :=
  cells.getD (y * columns + x) ⟨0, 0, 0, 0, 0⟩

/-! ## What a put writes -/

/-- The cell that `tc_ui_put` writes at column `x` of a window. -/
def putCell (columns : ℕ) (x : ℤ) (codepoint foreground background : ℕ) : TcUiCell :=
  if uiWidth codepoint = 2 ∧ columns ≤ x + 1 then ⟨32, foreground, background, 0, 1⟩
  else
    ⟨if codepoint < 32 ∨ (127 ≤ codepoint ∧ codepoint < 160) then 32 else codepoint,
      foreground, background, 0, uiWidth codepoint⟩

/-- The second half of a wide glyph. -/
def tailCell (foreground background : ℕ) : TcUiCell := ⟨0, foreground, background, 0, 0⟩

theorem cellIndex_natCast (columns x y : ℕ) : cellIndex columns x y = y * columns + x := by
  rw [cellIndex]
  omega

theorem putCell_width (columns : ℕ) (x : ℤ) (cp fg bg : ℕ) :
    (putCell columns x cp fg bg).width = 1 ∨
      ((putCell columns x cp fg bg).width = 2 ∧ uiWidth cp = 2 ∧ x + 1 < columns) := by
  rw [putCell]
  split
  · exact .inl rfl
  · rename_i hcut
    rcases uiWidth_cases cp with hwidth | hwidth
    · exact .inl hwidth
    · exact .inr ⟨hwidth, hwidth, lt_of_not_ge fun hge ↦ hcut ⟨hwidth, hge⟩⟩

theorem putStores_outside {columns rows : ℕ} {x y : ℤ}
    (h : x < 0 ∨ columns ≤ x ∨ y < 0 ∨ rows ≤ y) (cp fg bg : ℕ) :
    putStores columns rows x y cp fg bg = [] := if_pos h

theorem putStores_inside {columns rows x y : ℕ} (hx : x < columns) (hy : y < rows)
    (cp fg bg : ℕ) :
    putStores columns rows x y cp fg bg =
      if (putCell columns x cp fg bg).width = 2 then
        [⟨y * columns + x, fun _ ↦ putCell columns x cp fg bg⟩,
          ⟨y * columns + x + 1, fun _ ↦ tailCell fg bg⟩]
      else [⟨y * columns + x, fun _ ↦ putCell columns x cp fg bg⟩] := by
  have hin : ¬ ((x : ℤ) < 0 ∨ (columns : ℤ) ≤ x ∨ (y : ℤ) < 0 ∨ (rows : ℤ) ≤ y) := by omega
  simp only [putStores, if_neg hin, putCell, tailCell, cellIndex_natCast]
  by_cases hcut : uiWidth cp = 2 ∧ (columns : ℤ) ≤ x + 1
  · simp only [if_pos hcut]
  · simp only [if_neg hcut]

/-! ## Text -/

/-- `while (spaces-- && x - start < width) tc_ui_put(ui, x++, y, ' ', fg, bg);` -/
def tabLoop (start y width : ℤ) (fg bg : ℕ) : ℕ → ℤ → List DrawOp × ℤ
  | 0, x => ([], x)
  | spaces + 1, x =>
      if x - start < width then
        let rest := tabLoop start y width fg bg spaces (x + 1)
        (.put x y 32 fg bg :: rest.1, rest.2)
      else ([], x)

/-- The loop of `tc_ui_text_clip`.  Every turn moves `p` up (`utf8Decode_lt`), so as
many turns as the text has bytes are enough. -/
def textClipLoop (text : List UInt8) (start y width : ℤ) (fg bg : ℕ) :
    ℕ → ℕ → ℤ → List DrawOp
  | 0, _, _ => []
  | fuel + 1, p, x =>
      if p < text.length ∧ x - start < width then
        let cp := (utf8Decode text p).1
        let p := (utf8Decode text p).2
        let cw : ℤ := uiWidth cp
        if cp = 10 then []
        else if cp = 9 then
          let spaces := 4 - (x - start).tmod 4
          let tab := tabLoop start y width fg bg spaces.toNat x
          tab.1 ++ textClipLoop text start y width fg bg fuel p tab.2
        else if width < x - start + cw then []
        else .put x y cp fg bg :: textClipLoop text start y width fg bg fuel p (x + cw)
      else []

def textClip (x y : ℤ) (text : List UInt8) (fg bg : ℕ) (width : ℤ) : List DrawOp :=
  textClipLoop text x y width fg bg text.length 0 x

end TinyCPlus.Tui
