import TinyCPlus.Library.BlockCode
import TinyCPlus.Runtime.GapSimulation

/-!
# The editor of code points

A text of code points with a cursor between two of them, and the calls of the
gap buffer in these terms.  The encoding of such a text is valid UTF-8, and the
cursor is a boundary in it.
-/

namespace TinyCPlus.Runtime

open TinyCPlus.Library

/-! ## UTF-8 -/

theorem isContinuation_ofNat (n : ℕ) : isContinuation (UInt8.ofNat (n % 64 + 128)) = true := by
  have hall : ∀ m < 64, isContinuation (UInt8.ofNat (m + 128)) = true := by decide
  exact hall _ (Nat.mod_lt n (by decide))

theorem not_isContinuation_of_lt {n : ℕ} (h : n < 128) :
    isContinuation (UInt8.ofNat n) = false := by
  have hall : ∀ m < 128, isContinuation (UInt8.ofNat m) = false := by decide
  exact hall n h

theorem not_isContinuation_of_ge {n : ℕ} (h : 192 ≤ n) (h' : n < 256) :
    isContinuation (UInt8.ofNat n) = false := by
  have hall : ∀ m < 64, isContinuation (UInt8.ofNat (m + 192)) = false := by decide
  obtain ⟨m, rfl⟩ := Nat.exists_eq_add_of_le' h
  exact hall m (by omega)

/-- The bytes of a code point: one below 128, or a leading byte from 192 on with
its continuation bytes. -/
theorem utf8EncodeChar_cases (c : Char) :
    (c.val.toNat < 128 ∧ String.utf8EncodeChar c = [UInt8.ofNat c.val.toNat]) ∨
      ∃ n bytes, 192 ≤ n ∧ n < 256 ∧ String.utf8EncodeChar c = UInt8.ofNat n :: bytes ∧
        ∀ b ∈ bytes, ∃ m, b = UInt8.ofNat (m % 64 + 128) := by
  have hmax : c.val.toNat < 1114112 := by
    have hvalid := c.valid
    simp only [UInt32.isValidChar, Nat.isValidChar] at hvalid
    omega
  unfold String.utf8EncodeChar
  generalize c.val.toNat = v at hmax
  simp only
  split_ifs with h1 h2 h3
  · exact .inl ⟨by omega, rfl⟩
  · refine .inr ⟨v / 64 % 32 + 192, _, by omega, by omega, rfl, ?_⟩
    simp only [List.mem_singleton, forall_eq]
    exact ⟨v, rfl⟩
  · refine .inr ⟨v / 4096 % 16 + 224, _, by omega, by omega, rfl, ?_⟩
    simp only [List.mem_cons, List.not_mem_nil, or_false, forall_eq_or_imp, forall_eq]
    exact ⟨⟨_, rfl⟩, ⟨_, rfl⟩⟩
  · refine .inr ⟨v / 262144 % 8 + 240, _, by omega, by omega, rfl, ?_⟩
    simp only [List.mem_cons, List.not_mem_nil, or_false, forall_eq_or_imp, forall_eq]
    exact ⟨⟨_, rfl⟩, ⟨_, rfl⟩, ⟨_, rfl⟩⟩

/-- UTF-8 as a self-synchronising code. -/
def utf8 : BlockCode Char UInt8 where
  encode := String.utf8EncodeChar
  cont := isContinuation
  lead c := (String.utf8EncodeChar c).headD 0
  tail c := (String.utf8EncodeChar c).tail
  encode_eq c := by
    rcases utf8EncodeChar_cases c with ⟨-, h⟩ | ⟨n, bytes, -, -, h, -⟩ <;> rw [h] <;> rfl
  lead_not_cont c := by
    rcases utf8EncodeChar_cases c with ⟨hlt, h⟩ | ⟨n, bytes, hge, hlt, h, -⟩
    · rw [h]
      exact not_isContinuation_of_lt hlt
    · rw [h]
      exact not_isContinuation_of_ge hge hlt
  tail_cont c b hb := by
    rcases utf8EncodeChar_cases c with ⟨-, h⟩ | ⟨n, bytes, -, -, h, hbytes⟩
    · simp [h] at hb
    · rw [h] at hb
      obtain ⟨m, rfl⟩ := hbytes b hb
      exact isContinuation_ofNat m

theorem newline_isUnit : utf8.IsUnit '\n' newline where
  encode := rfl
  only c hc := by
    rcases utf8EncodeChar_cases c with ⟨hlt, h⟩ | ⟨n, bytes, hge, hlt, h, hbytes⟩
    · have hc : newline ∈ String.utf8EncodeChar c := hc
      rw [h, List.mem_singleton] at hc
      have hval : c.val.toNat = 10 := by
        have htoNat := congrArg UInt8.toNat hc
        rw [UInt8.toNat_ofNat', Nat.mod_eq_of_lt (by omega)] at htoNat
        exact htoNat.symm
      exact Char.ext (UInt32.toNat_inj.mp hval)
    · have hc : newline ∈ String.utf8EncodeChar c := hc
      rw [h, List.mem_cons] at hc
      rcases hc with hc | hc
      · have htoNat := congrArg UInt8.toNat hc
        rw [UInt8.toNat_ofNat', Nat.mod_eq_of_lt (by omega)] at htoNat
        have hten : newline.toNat = 10 := rfl
        omega
      · obtain ⟨m, hm⟩ := hbytes _ hc
        have htoNat := congrArg UInt8.toNat hm
        rw [UInt8.toNat_ofNat', Nat.mod_eq_of_lt (by omega)] at htoNat
        have hten : newline.toNat = 10 := rfl
        omega

/-! ## The editor -/

/-- A text of code points within the limit, with a cursor between two of them. -/
structure CodePointEditor where
  chars : List Char
  cursor : ℕ
  cursor_le : cursor ≤ chars.length
  chars_le : (utf8.text chars).length ≤ gapLimit

/-- The calls of the gap buffer that keep to code points. -/
inductive CodePointOp where
  | left
  | right
  | backspace
  | delete
  | home
  | toEnd
  | vertical (direction : ℤ)
  | gotoLine (line : ℤ)
  | cutLine
  | insert (input : List Char)
  | seekFound (needle : List Char) (start : ℕ) (nonempty : needle ≠ [])

namespace CodePointEditor

/-- The number of code points between the start of the line and `k`. -/
def column (cs : List Char) (k : ℕ) : ℕ := ((cs.take k).reverse.takeWhile (· ≠ '\n')).length

def lineStart (cs : List Char) (k : ℕ) : ℕ := k - column cs k

def lineEnd (cs : List Char) (k : ℕ) : ℕ := k + ((cs.drop k).takeWhile (· ≠ '\n')).length

/-- The start of line `n`, or the end of the text. -/
def lineOffset : List Char → ℤ → ℕ
  | [], _ => 0
  | c :: rest, n => if 0 < n then 1 + lineOffset rest (if c = '\n' then n - 1 else n) else 0

/-- Where `column` stands in the line that starts at `p`, or the end of that line. -/
def inLine (cs : List Char) (p column : ℕ) : ℕ := min (lineEnd cs p) (p + column)

/-- The first boundary from the byte `start` on at which the needle stands. -/
def found (cs needle : List Char) (start : ℕ) : Option ℕ :=
  (List.range (cs.length + 1)).find? fun k ↦
    start ≤ utf8.offset cs k ∧ (utf8.text needle).isPrefixOf (utf8.text (cs.drop k))

def moveTo (e : CodePointEditor) (k : ℕ) : CodePointEditor where
  chars := e.chars
  cursor := min k e.chars.length
  cursor_le := min_le_right _ _
  chars_le := e.chars_le

theorem cursor_le_erased (e : CodePointEditor) {j : ℕ} (k : ℕ) (hj : j ≤ e.chars.length) :
    j ≤ (e.chars.take j ++ e.chars.drop k).length := by
  rw [List.length_append, List.length_take]
  omega

theorem erased_le (e : CodePointEditor) {j k : ℕ} (hjk : j ≤ k) :
    (utf8.text (e.chars.take j ++ e.chars.drop k)).length ≤ gapLimit := by
  have hle := e.chars_le
  have hmono := utf8.offset_mono e.chars hjk
  have hsplit := utf8.text_split e.chars k
  rw [hsplit, List.length_append] at hle
  rw [utf8.text_append, List.length_append]
  simp only [BlockCode.offset] at hmono
  omega

/-- Removes the code points between `j` and `k` and puts the cursor at `j`. -/
def erase (e : CodePointEditor) (j k : ℕ) (hj : j ≤ e.chars.length) (hjk : j ≤ k) :
    CodePointEditor where
  chars := e.chars.take j ++ e.chars.drop k
  cursor := j
  cursor_le := e.cursor_le_erased k hj
  chars_le := e.erased_le hjk

/-- Inserting leaves the editor as it is when the text would pass the limit. -/
def insert (e : CodePointEditor) (input : List Char) : CodePointEditor :=
  if h : (utf8.text e.chars).length + (utf8.text input).length ≤ gapLimit then
    { chars := e.chars.take e.cursor ++ input ++ e.chars.drop e.cursor
      cursor := e.cursor + input.length
      cursor_le := by
        have hcursor := e.cursor_le
        simp only [List.length_append, List.length_take, List.length_drop]
        omega
      chars_le := by
        rw [utf8.text_split e.chars e.cursor] at h
        simp only [utf8.text_append, List.length_append] at h ⊢
        omega }
  else e

theorem lineStart_le (cs : List Char) (k : ℕ) : lineStart cs k ≤ k := Nat.sub_le _ _

theorem le_lineEnd (cs : List Char) (k : ℕ) : k ≤ lineEnd cs k := Nat.le_add_right _ _

/-- The cursor goes to the line above or below, to its column or to the end of a
shorter line. -/
def vertical (e : CodePointEditor) (direction : ℤ) : CodePointEditor :=
  let here := lineStart e.chars e.cursor
  let column := column e.chars e.cursor
  if direction < 0 then
    if here = 0 then e
    else e.moveTo (inLine e.chars (lineStart e.chars (here - 1)) column)
  else
    if lineEnd e.chars here = e.chars.length then e
    else e.moveTo (inLine e.chars (lineEnd e.chars here + 1) column)

/-- The end of the cursor's line, with the newline that closes it. -/
def lineStop (e : CodePointEditor) : ℕ :=
  if lineEnd e.chars e.cursor < e.chars.length then lineEnd e.chars e.cursor + 1
  else lineEnd e.chars e.cursor

theorem cursor_le_lineStop (e : CodePointEditor) : e.cursor ≤ e.lineStop := by
  have h := le_lineEnd e.chars e.cursor
  rw [lineStop]
  split <;> omega

def apply (e : CodePointEditor) : CodePointOp → CodePointEditor
  | .left => e.moveTo (e.cursor - 1)
  | .right => e.moveTo (e.cursor + 1)
  | .backspace =>
      e.erase (e.cursor - 1) e.cursor ((Nat.sub_le _ _).trans e.cursor_le) (Nat.sub_le _ _)
  | .delete => e.erase e.cursor (e.cursor + 1) e.cursor_le (Nat.le_succ _)
  | .home => e.moveTo (lineStart e.chars e.cursor)
  | .toEnd => e.moveTo (lineEnd e.chars e.cursor)
  | .vertical direction => e.vertical direction
  | .gotoLine line => e.moveTo (lineOffset e.chars line)
  | .cutLine =>
      e.erase (lineStart e.chars e.cursor) e.lineStop ((lineStart_le _ _).trans e.cursor_le)
        ((lineStart_le _ _).trans e.cursor_le_lineStop)
  | .insert input => e.insert input
  | .seekFound needle start _ =>
      match found e.chars needle start with
      | some k => e.moveTo k
      | none => e

/-- The bytes of the text and the position of the cursor in them. -/
def toEditor (e : CodePointEditor) : Editor where
  text := utf8.text e.chars
  cursor := utf8.offset e.chars e.cursor
  cursor_le := utf8.offset_le _ _
  text_le := e.chars_le

end CodePointEditor

/-- The calls on the gap buffer.  A search is followed by a seek if it has found
something. -/
def TcGap.applyCodePoint (g : TcGap) : CodePointOp → TcGap
  | .left => g.left
  | .right => g.right
  | .backspace => g.backspace
  | .delete => g.delete
  | .home => g.home
  | .toEnd => g.toEnd
  | .vertical direction => g.vertical direction
  | .gotoLine line => g.gotoLine line
  | .cutLine => g.cutLine.1
  | .insert input => (g.insert (utf8.text input)).1
  | .seekFound needle start _ =>
      let p := g.find (utf8.text needle) start
      if 0 ≤ p then g.seek p.toNat else g

end TinyCPlus.Runtime
