import TinyCPlus.Library.GlyphRow
import TinyCPlus.Tui.Screen

/-!
# Terminals

A terminal reads bytes one at a time.  It honours the sequences for the cursor and for
colours; other bytes are code points in UTF-8, and one that is no control character is
shown at the cursor, which advances by its width.  A glyph that does not fit into the
row goes to the next one.
-/

namespace TinyCPlus.Tui

open TinyCPlus.Library

/-- A code point in its colours. -/
structure Glyph where
  codepoint : ℕ
  foreground : ℕ
  background : ℕ
deriving DecidableEq, Repr

/-- What a terminal has read of a sequence. -/
inductive TerminalMode where
  | ground
  | escape
  | control (params : List ℕ) (current : ℕ)
  | continuing (bits rest : ℕ)
deriving DecidableEq, Repr

structure Terminal where
  columns : ℕ
  screen : ℕ → ℕ → GlyphCell Glyph
  x : ℕ
  y : ℕ
  foreground : ℕ
  background : ℕ
  mode : TerminalMode

/-- The code points that are shown as nothing. -/
def isControl (cp : ℕ) : Prop := cp < 32 ∨ (127 ≤ cp ∧ cp < 160)

instance : DecidablePred isControl := fun cp ↦
  inferInstanceAs (Decidable (cp < 32 ∨ (127 ≤ cp ∧ cp < 160)))

namespace Terminal

/-- Writes a glyph at the cursor. -/
def put (t : Terminal) (cp : ℕ) : Terminal :=
  { t with
    screen := Function.update t.screen t.y
      (GlyphRow.overwrite (t.screen t.y) t.x ⟨cp, t.foreground, t.background⟩ (uiWidth cp))
    x := t.x + uiWidth cp }

/-- Shows a code point. -/
def print (t : Terminal) (cp : ℕ) : Terminal :=
  if isControl cp then t
  else if t.x + uiWidth cp ≤ t.columns then t.put cp
  else put { t with x := 0, y := t.y + 1 } cp

/-- The colours of true-colour terminals. -/
def setColour (t : Terminal) : List ℕ → Terminal
  | [38, 2, r, g, b] => { t with foreground := r * 65536 + g * 256 + b }
  | [48, 2, r, g, b] => { t with background := r * 65536 + g * 256 + b }
  | _ => t

/-- A sequence with its final byte, `H` or `m`. -/
def execute (t : Terminal) (params : List ℕ) (final : UInt8) : Terminal :=
  if final = 72 then
    match params with
    | [row, column] => { t with x := column - 1, y := row - 1 }
    | _ => t
  else if final = 109 then t.setColour params
  else t

/-- Reads one byte. -/
def byte (t : Terminal) (b : UInt8) : Terminal :=
  match t.mode with
  | .ground =>
      if b = 27 then { t with mode := .escape }
      else if b < 128 then t.print b.toNat
      else
        match utf8Lead b.toNat with
        | some (bits, rest) => { t with mode := .continuing bits rest }
        | none => t.print 0xfffd
  | .escape => { t with mode := if b = 91 then .control [] 0 else .ground }
  | .control params current =>
      if 48 ≤ b ∧ b ≤ 57 then
        { t with mode := .control params (10 * current + (b.toNat - 48)) }
      else if b = 59 then { t with mode := .control (params ++ [current]) 0 }
      else execute { t with mode := .ground } (params ++ [current]) b
  | .continuing bits rest =>
      if b &&& 0xc0 ≠ 0x80 then print { t with mode := .ground } 0xfffd
      else
        let bits := bits <<< 6 ||| (b &&& 63).toNat
        if rest ≤ 1 then print { t with mode := .ground } bits
        else { t with mode := .continuing bits (rest - 1) }

def feed (t : Terminal) (bytes : List UInt8) : Terminal := bytes.foldl byte t

@[simp] theorem feed_nil (t : Terminal) : t.feed [] = t := rfl

@[simp] theorem feed_cons (t : Terminal) (b : UInt8) (rest : List UInt8) :
    t.feed (b :: rest) = (t.byte b).feed rest := rfl

theorem feed_append (t : Terminal) (front rest : List UInt8) :
    t.feed (front ++ rest) = (t.feed front).feed rest := List.foldl_append

/-! ## Sequences -/

/-- `%d` for a number that is not negative. -/
def decimal (n : ℕ) : List UInt8 :=
  if n = 0 then [48] else (Nat.digits 10 n).reverse.map fun d ↦ UInt8.ofNat (48 + d)

theorem byte_digit (t : Terminal) (params : List ℕ) (current : ℕ) {d : ℕ} (hd : d < 10) :
    byte { t with mode := .control params current } (UInt8.ofNat (48 + d)) =
      { t with mode := .control params (10 * current + d) } := by
  have hdigit : ∀ d < 10, (48 ≤ UInt8.ofNat (48 + d) ∧ UInt8.ofNat (48 + d) ≤ 57) ∧
      (UInt8.ofNat (48 + d)).toNat - 48 = d := by decide
  obtain ⟨hrange, hvalue⟩ := hdigit d hd
  simp only [byte, if_pos hrange, hvalue]

theorem feed_digits (t : Terminal) (params : List ℕ) (ds : List ℕ) (hds : ∀ d ∈ ds, d < 10)
    (current : ℕ) :
    feed { t with mode := .control params current } (ds.map fun d ↦ UInt8.ofNat (48 + d)) =
      { t with mode := .control params (ds.foldl (fun n d ↦ 10 * n + d) current) } := by
  induction ds generalizing current with
  | nil => rfl
  | cons d ds ih =>
      have hd : d < 10 := hds d List.mem_cons_self
      rw [List.map_cons, feed_cons, byte_digit t params current hd, List.foldl_cons]
      exact ih (fun e he ↦ hds e (List.mem_cons_of_mem d he)) _

/-- A number is read back. -/
theorem feed_decimal (t : Terminal) (params : List ℕ) (n : ℕ) :
    feed { t with mode := .control params 0 } (decimal n) = { t with mode := .control params n } := by
  unfold decimal
  split
  · rename_i hzero
    subst hzero
    exact feed_digits t params [0] (by decide) 0
  · have hdigits : ∀ d ∈ (Nat.digits 10 n).reverse, d < 10 := by
      intro d hd
      exact Nat.digits_lt_base (by decide) (List.mem_reverse.mp hd)
    have hvalue : (Nat.digits 10 n).reverse.foldl (fun n d ↦ 10 * n + d) 0 = n := by
      rw [List.foldl_reverse]
      have hof := Nat.ofDigits_digits 10 n
      rw [Nat.ofDigits_eq_foldr] at hof
      calc _ = List.foldr (fun x y ↦ (x : ℕ) + 10 * y) 0 (Nat.digits 10 n) := by
            congr 1
            funext d m
            exact Nat.add_comm _ _
        _ = n := hof
    rw [feed_digits t params _ hdigits, hvalue]

/-- The numbers of a sequence and its final byte. -/
def parameters (final : UInt8) : List ℕ → List UInt8
  | [] => [final]
  | [n] => decimal n ++ [final]
  | n :: rest => decimal n ++ 59 :: parameters final rest

/-- `ESC [`, the numbers with semicolons between them, and the final byte. -/
def sequence (params : List ℕ) (final : UInt8) : List UInt8 := 27 :: 91 :: parameters final params

theorem byte_semicolon (t : Terminal) (params : List ℕ) (current : ℕ) :
    byte { t with mode := .control params current } 59 =
      { t with mode := .control (params ++ [current]) 0 } := rfl

theorem byte_final (t : Terminal) (params : List ℕ) (current : ℕ) {final : UInt8}
    (hfinal : 64 ≤ final) :
    byte { t with mode := .control params current } final =
      execute { t with mode := .ground } (params ++ [current]) final := by
  have hdigit : ¬ (48 ≤ final ∧ final ≤ 57) := by
    rintro ⟨-, hle⟩
    exact absurd (UInt8.le_trans hfinal hle) (by decide)
  have hsemicolon : final ≠ 59 := by
    rintro rfl
    exact absurd hfinal (by decide)
  simp only [byte, if_neg hdigit, if_neg hsemicolon]

theorem feed_parameters (t : Terminal) {final : UInt8} (hfinal : 64 ≤ final) (n : ℕ)
    (rest : List ℕ) (before : List ℕ) :
    feed { t with mode := .control before 0 } (parameters final (n :: rest)) =
      execute { t with mode := .ground } (before ++ n :: rest) final := by
  induction rest generalizing n before with
  | nil =>
      rw [parameters, feed_append, feed_decimal]
      exact byte_final t before n hfinal
  | cons m rest ih =>
      rw [parameters, feed_append, feed_decimal, feed_cons, byte_semicolon, ih]
      · rw [List.append_assoc, List.singleton_append]
      · exact List.cons_ne_nil m rest

/-- A sequence is honoured. -/
theorem feed_sequence {t : Terminal} (hground : t.mode = .ground) (n : ℕ) (rest : List ℕ)
    {final : UInt8} (hfinal : 64 ≤ final) :
    t.feed (sequence (n :: rest) final) = t.execute (n :: rest) final := by
  have hstart : (t.byte 27).byte 91 = { t with mode := .control [] 0 } := by
    simp only [byte, hground, if_true]
  rw [sequence, feed_cons, feed_cons, hstart, feed_parameters t hfinal n rest []]
  rw [List.nil_append, ← hground]

/-! ## Code points -/

theorem byte_lead {t : Terminal} (hground : t.mode = .ground) {b : UInt8} {bits rest : ℕ}
    (hlead : utf8Lead b.toNat = some (bits, rest)) :
    t.byte b = { t with mode := .continuing bits rest } := by
  have hge : 0xc2 ≤ b.toNat := by
    by_contra hlt
    rw [utf8Lead, if_neg (by omega), if_neg (by omega), if_neg (by omega)] at hlead
    cases hlead
  have hescape : b ≠ 27 := by
    rintro rfl
    exact absurd hge (by decide)
  have hascii : ¬ b < 128 := by
    rw [UInt8.lt_iff_toNat_lt]
    exact fun hlt ↦ absurd (hge.trans hlt.le) (by decide)
  simp only [byte, hground, if_neg hescape, if_neg hascii, hlead]

/-- The byte that continues a code point with the six lower bits of `n`. -/
def continuation (n : ℕ) : UInt8 := UInt8.ofNat (0x80 ||| (n &&& 63))

theorem continuation_bits (n : ℕ) :
    continuation n &&& 0xc0 = 0x80 ∧ (continuation n &&& 63).toNat = n % 64 := by
  have hmod : n &&& 63 = n % 64 := Nat.and_two_pow_sub_one_eq_mod n 6
  have hall : ∀ k < 64, UInt8.ofNat (0x80 ||| k) &&& 0xc0 = 0x80 ∧
      (UInt8.ofNat (0x80 ||| k) &&& 63).toNat = k := by decide
  rw [continuation, hmod]
  exact hall (n % 64) (Nat.mod_lt n (by decide))

theorem shift_or (bits n : ℕ) : bits <<< 6 ||| n % 64 = 64 * bits + n % 64 := by
  have hlt : n % 64 < 2 ^ 6 := Nat.mod_lt n (by decide)
  rw [← Nat.shiftLeft_add_eq_or_of_lt hlt, Nat.shiftLeft_eq]
  omega

theorem byte_continuation (t : Terminal) (bits rest n : ℕ) :
    byte { t with mode := .continuing bits (rest + 2) } (continuation n) =
      { t with mode := .continuing (64 * bits + n % 64) (rest + 1) } := by
  obtain ⟨hmark, hbits⟩ := continuation_bits n
  simp only [byte, hmark, hbits, shift_or]
  rfl

theorem byte_last (t : Terminal) (bits n : ℕ) :
    byte { t with mode := .continuing bits 1 } (continuation n) =
      print { t with mode := .ground } (64 * bits + n % 64) := by
  obtain ⟨hmark, hbits⟩ := continuation_bits n
  simp only [byte, hmark, hbits, shift_or]
  rfl

theorem utf8Valid_le (cp : ℕ) : utf8Valid cp ≤ 0x10ffff := by
  rw [utf8Valid]
  split <;> omega

/-- A code point that is no control character is read back. -/
theorem feed_utf8Encode {t : Terminal} (hground : t.mode = .ground) {cp : ℕ}
    (hshown : ¬ isControl cp) : t.feed (utf8Encode cp) = t.print (utf8Valid cp) := by
  have hself : ({ t with mode := .ground } : Terminal) = t := by rw [← hground]
  have hvalid : ¬ isControl (utf8Valid cp) := by
    rw [utf8Valid]
    split
    · decide
    · exact hshown
  have hle := utf8Valid_le cp
  rw [utf8Encode]
  generalize utf8Valid cp = cp at hvalid hle ⊢
  dsimp only
  split
  · rename_i hascii
    have hall : ∀ k < 128, 32 ≤ k → UInt8.ofNat k ≠ 27 ∧ UInt8.ofNat k < 128 ∧
        (UInt8.ofNat k).toNat = k := by decide
    have hge : 32 ≤ cp := not_lt.mp fun hlt ↦ hvalid (.inl hlt)
    obtain ⟨hescape, hlt, hvalue⟩ := hall cp hascii hge
    simp only [feed_cons, feed_nil, byte, hground, if_neg hescape, if_pos hlt, hvalue]
  · split
    · have hall : ∀ k < 32, 2 ≤ k →
          utf8Lead (UInt8.ofNat (0xc0 ||| k)).toNat = some (k, 1) := by decide
      have hlead := hall (cp >>> 6) (by simp [Nat.shiftRight_eq_div_pow]; omega)
        (by simp [Nat.shiftRight_eq_div_pow]; omega)
      rw [feed_cons, byte_lead hground hlead, feed_cons]
      refine (byte_last t _ cp).trans ?_
      rw [hself]
      congr 1
      simp only [Nat.shiftRight_eq_div_pow]
      omega
    · split
      · have hall : ∀ k < 16, utf8Lead (UInt8.ofNat (0xe0 ||| k)).toNat = some (k, 2) := by decide
        have hlead := hall (cp >>> 12) (by simp [Nat.shiftRight_eq_div_pow]; omega)
        rw [feed_cons, byte_lead hground hlead, feed_cons, feed_cons]
        refine (congrArg (byte · _) (byte_continuation t _ 0 _)).trans ?_
        refine (byte_last t _ cp).trans ?_
        rw [hself]
        congr 1
        simp only [Nat.shiftRight_eq_div_pow]
        omega
      · have hall : ∀ k < 5, utf8Lead (UInt8.ofNat (0xf0 ||| k)).toNat = some (k, 3) := by decide
        have hlead := hall (cp >>> 18) (by simp [Nat.shiftRight_eq_div_pow]; omega)
        rw [feed_cons, byte_lead hground hlead, feed_cons, feed_cons, feed_cons]
        refine (congrArg (fun t ↦ byte (byte t _) _) (byte_continuation t _ 1 _)).trans ?_
        refine (congrArg (byte · _) (byte_continuation t _ 0 _)).trans ?_
        refine (byte_last t _ cp).trans ?_
        rw [hself]
        congr 1
        simp only [Nat.shiftRight_eq_div_pow]
        omega

end Terminal

end TinyCPlus.Tui
