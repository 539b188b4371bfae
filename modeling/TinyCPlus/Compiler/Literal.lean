import TinyCPlus.Compiler.Positions

/-!
# Literals in C (`literal`)

A literal is copied to C with its escapes, and `\xNN` as three octal digits.  C reads
the copy with its own rules: trigraphs are replaced first, and an octal escape takes up to
three digits.
-/

namespace TinyCPlus.Compiler

open TinyCPlus.Library

/-! ## What a literal stands for -/

/-- A character of a literal as it is written. -/
inductive LiteralChar where
  | raw (c : Char)
  | escape (e : Char)
  | hex (a b : Char)
deriving DecidableEq, Repr

def hexValue (c : Char) : ℕ :=
  if c.isDigit then c.toNat - '0'.toNat
  else if 'a' ≤ c then c.toNat - 'a'.toNat + 10
  else c.toNat - 'A'.toNat + 10

/-- The byte of `\e`. -/
def escapeValue : Char → ℕ
  | 'a' => 7
  | 'b' => 8
  | 'f' => 12
  | 'n' => 10
  | 'r' => 13
  | 't' => 9
  | 'v' => 11
  | '0' => 0
  | e => e.toNat

namespace LiteralChar

def text : LiteralChar → List Char
  | raw c => [c]
  | escape e => ['\\', e]
  | hex a b => ['\\', 'x', a, b]

def value : LiteralChar → ℕ
  | raw c => c.toNat
  | escape e => escapeValue e
  | hex a b => 16 * hexValue a + hexValue b

end LiteralChar

/-- The characters of a literal behind its opening quote. -/
def literalChars (quote : Char) : List Char → List LiteralChar
  | [] => []
  | c :: s =>
      if c = quote then []
      else if c = '\\' then
        match s with
        | 'x' :: a :: b :: s => .hex a b :: literalChars quote s
        | e :: s => .escape e :: literalChars quote s
        | [] => []
      else .raw c :: literalChars quote s

def Token.literalChars (t : Token) : List LiteralChar :=
  match t.text with
  | quote :: s => Compiler.literalChars quote s
  | [] => []

/-! ## What is emitted -/

namespace Cgen

/-- `%03lo` -/
def octal (n : ℕ) : List Char :=
  let digits := Nat.toDigits 8 n
  List.replicate (3 - digits.length) '0' ++ digits

/-- `literal` -/
def literal : List Char → List Char
  | [] => []
  | '\\' :: 'x' :: a :: b :: s => '\\' :: octal (16 * hexValue a + hexValue b) ++ literal s
  | '\\' :: e :: s => '\\' :: e :: literal s
  | c :: s => c :: literal s

end Cgen

/-! ## What C reads -/

namespace C11

/-- The character of `??c`. -/
def trigraph : Char → Option Char
  | '=' => some '#'
  | '/' => some '\\'
  | '\'' => some '^'
  | '(' => some '['
  | ')' => some ']'
  | '!' => some '|'
  | '<' => some '\x7b'
  | '>' => some '\x7d'
  | '-' => some '~'
  | _ => none

/-- Translation phase 1. -/
def trigraphs : List Char → List Char
  | [] => []
  | '?' :: '?' :: c :: s =>
      match trigraph c with
      | some r => r :: trigraphs s
      | none => '?' :: trigraphs ('?' :: c :: s)
  | c :: s => c :: trigraphs s

def isOctalDigit (c : Char) : Bool := '0' ≤ c && c ≤ '7'

def octalValue (ds : List Char) : ℕ := ds.foldl (fun n d ↦ 8 * n + (d.toNat - '0'.toNat)) 0

def hexadecimalValue (ds : List Char) : ℕ := ds.foldl (fun n d ↦ 16 * n + hexValue d) 0

def simpleEscapes : List Char := "abfnrtv\\\"'?".toList

/-- A universal character name of `n` digits in UTF-8.  The names below `A0` are not allowed but
for `$`, `@` and the backquote. -/
def universal (n : ℕ) (s : List Char) : Option (List ℕ × ℕ) :=
  let digits := s.take n
  let v := hexadecimalValue digits
  if digits.length = n ∧ digits.all isHexDigit ∧ v.isValidChar ∧
      (0xa0 ≤ v ∨ v = 0x24 ∨ v = 0x40 ∨ v = 0x60) then
    some ((String.utf8EncodeChar (Char.ofNat v)).map UInt8.toNat, n + 1)
  else none

/-- The bytes of an escape behind its backslash, and how many characters it takes there.  A
value that is no byte breaks a constraint. -/
def escape : List Char → Option (List ℕ × ℕ)
  | [] => none
  | c :: s =>
      if c ∈ simpleEscapes then some ([escapeValue c], 1)
      else if isOctalDigit c then
        let digits := ((c :: s).take 3).takeWhile isOctalDigit
        if octalValue digits ≤ 255 then some ([octalValue digits], digits.length) else none
      else if c = 'x' then
        let digits := s.takeWhile isHexDigit
        if digits ≠ [] ∧ hexadecimalValue digits ≤ 255 then
          some ([hexadecimalValue digits], digits.length + 1)
        else none
      else if c = 'u' then universal 4 s
      else if c = 'U' then universal 8 s
      else none

/-- The bytes of a literal behind its opening quote, and behind `skip` characters that are read
already.  Nothing may stand behind the closing quote. -/
def body (quote : Char) : ℕ → List Char → Option (List ℕ)
  | _, [] => none
  | skip + 1, _ :: s => body quote skip s
  | 0, c :: s =>
      if c = quote then if s = [] then some [] else none
      else if c = '\n' then none
      else if c = '\\' then
        match escape s with
        | some (bytes, used) => (body quote used s).map (bytes ++ ·)
        | none => none
      else (body quote 0 s).map (c.toNat :: ·)

/-- The bytes of a literal, without the zero at the end of a string. -/
def literal (s : List Char) : Option (List ℕ) :=
  match trigraphs s with
  | quote :: s => if quote = '"' ∨ quote = '\'' then body quote 0 s else none
  | [] => none

end C11

/-- `TC_STRING`: the bytes and `sizeof(s) - 1`. -/
def tcString (s : List Char) : Option (List ℕ × ℕ) :=
  (C11.literal s).map fun bytes ↦ (bytes, (bytes ++ [0]).length - 1)

example : tcString (Cgen.literal "\"a\\x41?\\0\"".toList) = some ([97, 65, 63, 0], 4) := by
  decide +kernel

/-- The C literal of the token denotes what the token does. -/
def Denotes (t : Token) : Prop :=
  C11.literal (Cgen.literal t.text) = some (t.literalChars.map LiteralChar.value) ∧
    (t.kind = .string → tcString (Cgen.literal t.text) =
      some (t.literalChars.map LiteralChar.value, t.literalChars.length))

/-- No `\0` stands in front of an octal digit, and no characters make a trigraph. -/
structure Faithful (us : List LiteralChar) : Prop where
  zero : ∀ d, C11.isOctalDigit d = true → ¬ [.escape '0', .raw d] <:+: us
  question : ∀ c, (C11.trigraph c).isSome = true → ¬ [.raw '?', .raw '?', .raw c] <:+: us

/-! ## Literals of the lexer -/

namespace LiteralChar

/-- What the lexer lets through behind a backslash. -/
def Written : LiteralChar → Prop
  | raw _ => True
  | escape e => e ∈ escapes
  | hex a b => isHexDigit a = true ∧ isHexDigit b = true

/-- What the lexer lets through in a literal. -/
def Valid (quote : Char) : LiteralChar → Prop
  | raw c => c ≠ quote ∧ c ≠ '\n' ∧ c ≠ '\\'
  | u => u.Written

theorem Valid.written {quote : Char} {u : LiteralChar} (h : u.Valid quote) : u.Written := by
  cases u with
  | raw c => trivial
  | escape e => exact h
  | hex a b => exact h

/-- The C text of a character. -/
def emit : LiteralChar → List Char
  | raw c => [c]
  | escape e => ['\\', e]
  | hex a b => '\\' :: Cgen.octal (16 * hexValue a + hexValue b)

end LiteralChar

theorem literalBody_chars {quote : Char} {s body : List Char} {count : ℕ}
    (h : literalBody quote s = some (body, count)) :
    body = (literalChars quote body).flatMap LiteralChar.text ++ [quote] ∧
      (∀ u ∈ literalChars quote body, u.Valid quote) ∧
      (literalChars quote body).length = count := by
  fun_induction literalBody quote s generalizing body count with
  | case1 => cases h
  | case2 =>
      cases h
      simp [literalChars]
  | case3 => cases h
  | case4 a b s hhex hq hn ih =>
      obtain ⟨⟨body, n⟩, hbody, heq⟩ := Option.map_eq_some_iff.mp h
      cases heq
      obtain ⟨htext, hvalid, hcount⟩ := ih hbody
      have hchars : literalChars quote ('\\' :: 'x' :: a :: b :: body) =
          .hex a b :: literalChars quote body := by
        rw [literalChars, if_neg hq, if_pos rfl]
      rw [hchars]
      refine ⟨?_, List.forall_mem_cons.mpr ⟨hhex, hvalid⟩, congrArg (· + 1) hcount⟩
      exact congrArg (['\\', 'x', a, b] ++ ·) htext
  | case5 => cases h
  | case6 e s hno he hq hn ih =>
      obtain ⟨⟨body, n⟩, hbody, heq⟩ := Option.map_eq_some_iff.mp h
      cases heq
      obtain ⟨htext, hvalid, hcount⟩ := ih hbody
      have hx : e ≠ 'x' := by
        rintro rfl
        exact absurd he (by decide)
      have hchars : literalChars quote ('\\' :: e :: body) =
          .escape e :: literalChars quote body := by
        rw [literalChars, if_neg hq, if_pos rfl]
        intro a b s heq
        exact absurd heq hx
      rw [hchars]
      refine ⟨?_, List.forall_mem_cons.mpr ⟨he, hvalid⟩, congrArg (· + 1) hcount⟩
      exact congrArg (['\\', e] ++ ·) htext
  | case7 => cases h
  | case8 => cases h
  | case9 c s hq hn hb ih =>
      obtain ⟨⟨body, n⟩, hbody, heq⟩ := Option.map_eq_some_iff.mp h
      cases heq
      obtain ⟨htext, hvalid, hcount⟩ := ih hbody
      have hchars : literalChars quote (c :: body) = .raw c :: literalChars quote body := by
        rw [literalChars.eq_def]
        simp only [if_neg hq, if_neg hb]
      rw [hchars]
      have hraw : (LiteralChar.raw c).Valid quote := ⟨hq, (not_or.mp hn).1, hb⟩
      refine ⟨?_, List.forall_mem_cons.mpr ⟨hraw, hvalid⟩, congrArg (· + 1) hcount⟩
      exact congrArg (c :: ·) htext

/-- The C text of the characters and the closing quote. -/
def emitted (quote : Char) (us : List LiteralChar) : List Char :=
  us.flatMap LiteralChar.emit ++ [quote]

@[simp] theorem emitted_nil (quote : Char) : emitted quote [] = [quote] := rfl

@[simp] theorem emitted_cons (quote : Char) (u : LiteralChar) (us : List LiteralChar) :
    emitted quote (u :: us) = u.emit ++ emitted quote us := by
  simp [emitted]

theorem emitted_ne_nil (quote : Char) (us : List LiteralChar) : emitted quote us ≠ [] :=
  List.append_ne_nil_of_right_ne_nil _ (List.cons_ne_nil _ _)

theorem Cgen.literal_cons {c : Char} (hc : c ≠ '\\') (s : List Char) :
    Cgen.literal (c :: s) = c :: Cgen.literal s := by
  rw [Cgen.literal]
  · intro a b s' h
    exact absurd h hc
  · intro e s' h
    exact absurd h hc

theorem Cgen.literal_text {quote : Char} (hquote : quote ≠ '\\') {us : List LiteralChar}
    (h : ∀ u ∈ us, u.Valid quote) :
    Cgen.literal (us.flatMap LiteralChar.text ++ [quote]) = emitted quote us := by
  induction us with
  | nil => exact Cgen.literal_cons hquote []
  | cons u us ih =>
      obtain ⟨hu, hus⟩ := List.forall_mem_cons.mp h
      rw [List.flatMap_cons, List.append_assoc, emitted_cons, ← ih hus]
      cases u with
      | raw c => exact Cgen.literal_cons hu.2.2 _
      | escape e =>
          have hx : e ≠ 'x' := by
            rintro rfl
            exact absurd (show 'x' ∈ escapes from hu) (by decide)
          exact Cgen.literal.eq_3 e _ fun a b s heq ↦ absurd heq hx
      | hex a b => rfl

/-! ## Escapes in C -/

namespace C11

theorem octal_digits : ∀ n < 256, (Cgen.octal n).length = 3 ∧
    (Cgen.octal n).all isOctalDigit = true ∧ octalValue (Cgen.octal n) = n := by
  decide +kernel

theorem octal_spec : ∀ n < 256, ∃ a b c, Cgen.octal n = [a, b, c] ∧ isOctalDigit a = true ∧
    isOctalDigit b = true ∧ isOctalDigit c = true ∧ octalValue [a, b, c] = n := by
  intro n hn
  obtain ⟨hlength, hdigits, hvalue⟩ := octal_digits n hn
  obtain ⟨a, b, c, heq⟩ := List.length_eq_three.mp hlength
  simp only [heq, List.all_cons, List.all_nil, Bool.and_true, Bool.and_eq_true] at hdigits hvalue
  exact ⟨a, b, c, heq, hdigits.1, hdigits.2.1, hdigits.2.2, hvalue⟩

theorem hexValue_lt {c : Char} (h : isHexDigit c = true) : hexValue c < 16 := by
  simp only [isHexDigit, Char.isDigit, Bool.or_eq_true, Bool.and_eq_true, decide_eq_true_eq] at h
  simp only [hexValue, Char.isDigit, Bool.and_eq_true, decide_eq_true_eq]
  simp only [Char.le_def, UInt32.le_iff_toNat_le, ge_iff_le] at h ⊢
  simp only [Char.toNat, Char.reduceVal, UInt32.reduceToNat] at h ⊢
  split_ifs <;> omega

theorem escapes_eq : escapes = ['a', 'b', 'f', 'n', 'r', 't', 'v', '\\', '"', '\'', '0'] := rfl

theorem simpleEscapes_eq :
    simpleEscapes = ['a', 'b', 'f', 'n', 'r', 't', 'v', '\\', '"', '\'', '?'] := rfl

theorem isOctalDigit_not_simple {c : Char} (h : isOctalDigit c = true) : c ∉ simpleEscapes := by
  intro hmem
  simp only [simpleEscapes_eq, List.mem_cons, List.not_mem_nil, or_false] at hmem
  rcases hmem with rfl | rfl | rfl | rfl | rfl | rfl | rfl | rfl | rfl | rfl | rfl <;> cases h

theorem escape_simple {e : Char} (he : e ∈ simpleEscapes) (s : List Char) :
    escape (e :: s) = some ([escapeValue e], 1) := by
  rw [escape, if_pos he]

/-- An octal escape by the digits that it takes. -/
theorem escape_octal {c : Char} (hc : isOctalDigit c = true) (s : List Char) :
    escape (c :: s) =
      if octalValue (((c :: s).take 3).takeWhile isOctalDigit) ≤ 255 then
        some ([octalValue (((c :: s).take 3).takeWhile isOctalDigit)],
          (((c :: s).take 3).takeWhile isOctalDigit).length)
      else none := by
  rw [escape, if_neg (isOctalDigit_not_simple hc), if_pos hc]

theorem escape_emitted_octal {n : ℕ} (hn : n < 256) (s : List Char) :
    escape (Cgen.octal n ++ s) = some ([n], 3) := by
  obtain ⟨a, b, c, heq, ha, hb, hc, hvalue⟩ := octal_spec n hn
  have htake : ((a :: b :: c :: s).take 3).takeWhile isOctalDigit = [a, b, c] := by
    simp [ha, hb, hc]
  rw [heq]
  change escape (a :: b :: c :: s) = _
  rw [escape_octal ha, htake, hvalue, if_pos (by omega)]
  rfl

theorem escape_zero {s : List Char} (h : ∀ d ∈ s.head?, isOctalDigit d = false) :
    escape ('0' :: s) = some ([0], 1) := by
  have hdigits : (('0' :: s).take 3).takeWhile isOctalDigit = ['0'] := by
    cases s with
    | nil => rfl
    | cons d s =>
        have hd : isOctalDigit d = false := h d rfl
        have hzero : isOctalDigit '0' = true := rfl
        cases s <;> simp [hd, hzero]
  rw [escape_octal rfl, hdigits]
  rfl

theorem two_le_of_escape_zero {s : List Char} {d : Char} (hs : s.head? = some d)
    (hd : isOctalDigit d = true) {b : List ℕ} {k : ℕ} (h : escape ('0' :: s) = some (b, k)) :
    2 ≤ k := by
  have hzero : isOctalDigit '0' = true := rfl
  rw [escape_octal rfl] at h
  split at h
  · cases h
    cases s with
    | nil => cases hs
    | cons c s =>
        cases hs
        simp [hzero, hd]
  · cases h

theorem mem_take_takeWhile {p : Char → Bool} {s : List Char} {x : Char}
    (h : x ∈ s.take (s.takeWhile p).length) : p x = true := by
  rw [(List.prefix_iff_eq_take.mp (List.takeWhile_prefix p)).symm] at h
  exact List.mem_takeWhile_imp h

theorem isHexDigit_ne_backslash {c : Char} (h : isHexDigit c = true) : c ≠ '\\' := by
  rintro rfl
  cases h

theorem universal_spec {n k : ℕ} {s : List Char} {b : List ℕ} (hn : 4 ≤ n)
    (h : universal n s = some (b, k)) :
    k = n + 1 ∧ b ≠ [] ∧ b.length ≤ k ∧ '\\' ∉ s.take n := by
  rw [universal] at h
  split at h
  · rename_i hdigits
    cases h
    refine ⟨rfl, ?_, ?_, ?_⟩
    · rw [Ne, List.map_eq_nil_iff]
      exact String.utf8EncodeChar_ne_nil
    · have hsize := Char.utf8Size_le_four (Char.ofNat (hexadecimalValue (s.take n)))
      rw [List.length_map, String.length_utf8EncodeChar]
      omega
    · intro hmem
      exact isHexDigit_ne_backslash (List.all_eq_true.mp hdigits.2.1 _ hmem) rfl
  · cases h

/-- An escape takes at least as many characters as it has bytes, and no second backslash but for
a backslash of its own. -/
theorem escape_spec {s : List Char} {b : List ℕ} {k : ℕ} (h : escape s = some (b, k)) :
    1 ≤ k ∧ b ≠ [] ∧ b.length ≤ k ∧
      ((s.head? = some '\\' ∧ k = 1 ∧ b = [92]) ∨ '\\' ∉ s.take k) := by
  cases s with
  | nil => cases h
  | cons c s =>
      by_cases hsimple : c ∈ simpleEscapes
      · rw [escape_simple hsimple] at h
        cases h
        refine ⟨le_rfl, List.cons_ne_nil _ _, le_rfl, ?_⟩
        by_cases hc : c = '\\'
        · subst hc
          exact Or.inl ⟨rfl, rfl, rfl⟩
        · right
          simpa using fun heq ↦ hc heq.symm
      · by_cases hoctal : isOctalDigit c = true
        · rw [escape_octal hoctal] at h
          split at h
          · cases h
            have hpos : 1 ≤ (((c :: s).take 3).takeWhile isOctalDigit).length := by
              simp [hoctal]
            refine ⟨hpos, List.cons_ne_nil _ _, hpos, Or.inr ?_⟩
            intro hmem
            have hle : (((c :: s).take 3).takeWhile isOctalDigit).length ≤ 3 :=
              (List.takeWhile_sublist _).length_le.trans (List.length_take_le _ _)
            have htake : (c :: s).take (((c :: s).take 3).takeWhile isOctalDigit).length =
                ((c :: s).take 3).take (((c :: s).take 3).takeWhile isOctalDigit).length := by
              rw [List.take_take, min_eq_left hle]
            rw [htake] at hmem
            cases mem_take_takeWhile hmem
          · cases h
        · rw [escape, if_neg hsimple, if_neg hoctal] at h
          split at h
          · rename_i hx
            subst hx
            dsimp only at h
            split at h
            · rename_i hdigits
              cases h
              refine ⟨by omega, List.cons_ne_nil _ _, by simp, Or.inr ?_⟩
              rw [List.take_succ_cons, List.mem_cons, not_or]
              refine ⟨by decide, fun hmem ↦ ?_⟩
              exact isHexDigit_ne_backslash (mem_take_takeWhile hmem) rfl
            · cases h
          · split at h
            · rename_i hu
              subst hu
              obtain ⟨rfl, hne, hle, htake⟩ := universal_spec (by omega) h
              refine ⟨by omega, hne, hle, Or.inr ?_⟩
              rw [List.take_succ_cons, List.mem_cons, not_or]
              exact ⟨by decide, htake⟩
            · split at h
              · rename_i hu
                subst hu
                obtain ⟨rfl, hne, hle, htake⟩ := universal_spec (by omega) h
                refine ⟨by omega, hne, hle, Or.inr ?_⟩
                rw [List.take_succ_cons, List.mem_cons, not_or]
                exact ⟨by decide, htake⟩
              · cases h

/-! ## Texts of characters -/

theorem body_skip (quote : Char) (k : ℕ) (s : List Char) :
    body quote k s = body quote 0 (s.drop k) := by
  induction k generalizing s with
  | zero => rfl
  | succ k ih =>
      cases s with
      | nil => rfl
      | cons c s => exact ih s

theorem body_backslash {quote : Char} (hquote : quote ≠ '\\') (s : List Char) :
    body quote 0 ('\\' :: s) =
      match escape s with
      | some (bytes, used) => (body quote 0 (s.drop used)).map (bytes ++ ·)
      | none => none := by
  rw [body, if_neg hquote.symm, if_neg (by decide), if_pos rfl]
  split
  · rw [body_skip]
  · rfl

theorem body_backslash_some {quote : Char} (hquote : quote ≠ '\\') {s : List Char}
    {bytes : List ℕ} (h : body quote 0 ('\\' :: s) = some bytes) :
    ∃ b k bs, escape s = some (b, k) ∧ body quote 0 (s.drop k) = some bs ∧ bytes = b ++ bs := by
  rw [body_backslash hquote] at h
  split at h
  · rename_i b k hescape
    obtain ⟨bs, hbs, rfl⟩ := Option.map_eq_some_iff.mp h
    exact ⟨b, k, bs, hescape, hbs, rfl⟩
  · cases h

theorem body_raw {quote c : Char} (hc : c ≠ quote ∧ c ≠ '\n' ∧ c ≠ '\\') (s : List Char) :
    body quote 0 (c :: s) = (body quote 0 s).map (c.toNat :: ·) := by
  rw [body, if_neg hc.1, if_neg hc.2.1, if_neg hc.2.2]

theorem escapes_simple {e : Char} (he : e ∈ escapes) (hzero : e ≠ '0') : e ∈ simpleEscapes := by
  simp only [escapes_eq, simpleEscapes_eq, List.mem_cons, List.not_mem_nil, or_false] at he ⊢
  tauto

theorem hex_lt {a b : Char} (h : (LiteralChar.hex a b).Written) :
    16 * hexValue a + hexValue b < 256 := by
  have ha := hexValue_lt h.1
  have hb := hexValue_lt h.2
  omega

/-- A character is read back, unless it is a zero in front of an octal digit. -/
theorem body_emit {quote : Char} (hquote : quote ≠ '\\') {u : LiteralChar} (hu : u.Valid quote)
    {s : List Char}
    (hzero : u = .escape '0' → ∀ d ∈ s.head?, isOctalDigit d = false) :
    body quote 0 (u.emit ++ s) = (body quote 0 s).map (u.value :: ·) := by
  cases u with
  | raw c => exact body_raw hu s
  | escape e =>
      change body quote 0 ('\\' :: e :: s) = _
      rw [body_backslash hquote]
      by_cases he : e = '0'
      · subst he
        rw [escape_zero (hzero rfl)]
        rfl
      · rw [escape_simple (escapes_simple hu he)]
        rfl
  | hex a b =>
      have hn := hex_lt hu
      obtain ⟨x, y, z, heq, -⟩ := octal_spec _ hn
      have hread := escape_emitted_octal hn s
      change body quote 0 ('\\' :: (Cgen.octal (16 * hexValue a + hexValue b) ++ s)) = _
      rw [body_backslash hquote, hread, heq]
      rfl

/-! ## Lengths -/

/-- How many characters of the literal a character stands for; a backslash comes from a
trigraph. -/
def weight : LiteralChar → ℕ
  | .raw c => if c = '\\' then 3 else 1
  | _ => 1

def weights (us : List LiteralChar) : ℕ := (us.map weight).sum

@[simp] theorem weights_nil : weights [] = 0 := rfl

@[simp] theorem weights_cons (u : LiteralChar) (us : List LiteralChar) :
    weights (u :: us) = weight u + weights us := by
  simp [weights]

theorem weight_pos (u : LiteralChar) : 1 ≤ weight u := by
  cases u with
  | raw c =>
      rw [weight]
      split <;> omega
  | escape e => exact le_rfl
  | hex a b => exact le_rfl

theorem weight_raw {c : Char} (hc : c ≠ '\\') : weight (.raw c) = 1 := if_neg hc

/-- Characters that are read without a backslash among them are raw. -/
theorem emitted_drop {quote : Char} {us : List LiteralChar} (hus : ∀ u ∈ us, u.Written) {k : ℕ}
    (hk : k ≤ (us.flatMap LiteralChar.emit).length)
    (htake : '\\' ∉ (emitted quote us).take k) :
    ∃ vs, (emitted quote us).drop k = emitted quote vs ∧ weights vs + k = weights us ∧
      ∀ u ∈ vs, u.Written := by
  induction k generalizing us with
  | zero => exact ⟨us, rfl, rfl, hus⟩
  | succ k ih =>
      cases us with
      | nil => cases hk
      | cons u us =>
          obtain ⟨hu, hrest⟩ := List.forall_mem_cons.mp hus
          cases u with
          | raw c =>
              rw [emitted_cons] at htake
              change '\\' ∉ c :: (emitted quote us).take k at htake
              rw [List.mem_cons, not_or] at htake
              have hlen : k ≤ (us.flatMap LiteralChar.emit).length := by
                rw [List.flatMap_cons, List.length_append] at hk
                change k + 1 ≤ 1 + _ at hk
                omega
              obtain ⟨vs, hdrop, hweights, hvs⟩ := ih hrest hlen htake.2
              refine ⟨vs, ?_, ?_, hvs⟩
              · rw [emitted_cons]
                exact hdrop
              · rw [weights_cons, weight_raw (Ne.symm htake.1)]
                omega
          | escape e =>
              rw [emitted_cons] at htake
              exact absurd List.mem_cons_self htake
          | hex a b =>
              rw [emitted_cons] at htake
              exact absurd List.mem_cons_self htake

/-- What is read to its end leaves the closing quote. -/
theorem le_of_body_drop {quote : Char} {us : List LiteralChar} {k : ℕ} {bs : List ℕ}
    (h : body quote 0 ((emitted quote us).drop k) = some bs) :
    k ≤ (us.flatMap LiteralChar.emit).length := by
  by_contra hk
  have hdrop : (emitted quote us).drop k = [] := by
    apply List.drop_eq_nil_of_le
    rw [emitted, List.length_append]
    change _ + 1 ≤ k
    omega
  rw [hdrop] at h
  cases h

/-- The first character of an emitted text is a backslash, and its second one is read as raw. -/
theorem emitted_backslash {quote : Char} (hquote : quote ≠ '\\') {us : List LiteralChar}
    (hus : ∀ u ∈ us, u.Written) (hhead : (emitted quote us).head? = some '\\') :
    ∃ vs, (emitted quote us).drop 1 = emitted quote vs ∧ weights vs ≤ weights us + 2 ∧
      ∀ u ∈ vs, u.Written := by
  cases us with
  | nil => exact absurd (Option.some.inj hhead) hquote
  | cons u us =>
      obtain ⟨hu, hrest⟩ := List.forall_mem_cons.mp hus
      cases u with
      | raw c =>
          refine ⟨us, by rw [emitted_cons]; rfl, ?_, hrest⟩
          rw [weights_cons]
          omega
      | escape e =>
          refine ⟨.raw e :: us, by rw [emitted_cons, emitted_cons]; rfl, ?_,
            List.forall_mem_cons.mpr ⟨trivial, hrest⟩⟩
          have he : weight (.raw e) ≤ 3 := by
            rw [weight]
            split <;> omega
          have hescape : weight (.escape e) = 1 := rfl
          rw [weights_cons, weights_cons]
          omega
      | hex a b =>
          have hn := hex_lt hu
          obtain ⟨x, y, z, heq, hx, hy, hz, -⟩ := octal_spec _ hn
          have hne : ∀ d, isOctalDigit d = true → d ≠ '\\' := by
            rintro d hd rfl
            cases hd
          refine ⟨.raw x :: .raw y :: .raw z :: us, ?_, ?_, ?_⟩
          · rw [emitted_cons]
            change (Cgen.octal (16 * hexValue a + hexValue b) ++ emitted quote us) = _
            rw [heq]
            simp [LiteralChar.emit]
          · have hpos := weight_pos (.hex a b)
            simp only [weights_cons, weight_raw (hne x hx), weight_raw (hne y hy),
              weight_raw (hne z hz)]
            omega
          · simpa [LiteralChar.Written] using hrest

/-- What is left of the characters when C reads an escape in front of them. -/
theorem emitted_escape {quote : Char} (hquote : quote ≠ '\\') {us : List LiteralChar}
    (hus : ∀ u ∈ us, u.Written) {b : List ℕ} {k : ℕ}
    (hescape : escape (emitted quote us) = some (b, k))
    (hk : k ≤ (us.flatMap LiteralChar.emit).length) :
    ∃ vs, (emitted quote us).drop k = emitted quote vs ∧ (∀ u ∈ vs, u.Written) ∧
      b.length + weights vs ≤ weights us + 3 ∧
      (b.head? ≠ some 92 → b.length + weights vs ≤ weights us) := by
  obtain ⟨hpos, hne, hlength, ⟨hhead, rfl, rfl⟩ | htake⟩ := escape_spec hescape
  · obtain ⟨vs, hdrop, hweights, hvs⟩ := emitted_backslash hquote hus hhead
    refine ⟨vs, hdrop, hvs, ?_, fun h ↦ absurd rfl h⟩
    change 1 + weights vs ≤ _
    omega
  · obtain ⟨vs, hdrop, hweights, hvs⟩ := emitted_drop hus hk htake
    exact ⟨vs, hdrop, hvs, by omega, fun _ ↦ by omega⟩

/-- An octal escape takes `\0` and the raw digits behind it. -/
theorem emitted_zero {quote : Char} {us : List LiteralChar} (hus : ∀ u ∈ us, u.Written)
    {b : List ℕ} {k : ℕ} (hescape : escape ('0' :: emitted quote us) = some (b, k))
    (hk : k ≤ (us.flatMap LiteralChar.emit).length + 1) :
    ∃ vs, ('0' :: emitted quote us).drop k = emitted quote vs ∧ (∀ u ∈ vs, u.Written) ∧
      b.length + weights vs + k ≤ weights us + 2 := by
  have hraw : '0' :: emitted quote us = emitted quote (.raw '0' :: us) := by
    rw [emitted_cons]
    rfl
  have hbytes : b.length = 1 := by
    rw [escape_octal rfl] at hescape
    split at hescape
    · cases hescape
      rfl
    · cases hescape
  obtain ⟨-, -, -, ⟨hhead, -⟩ | htake⟩ := escape_spec hescape
  · cases hhead
  · rw [hraw] at htake ⊢
    have hwritten : ∀ u ∈ .raw '0' :: us, u.Written := List.forall_mem_cons.mpr ⟨trivial, hus⟩
    have hlen : k ≤ ((.raw '0' :: us).flatMap LiteralChar.emit).length := by
      rw [List.flatMap_cons, List.length_append]
      change k ≤ 1 + _
      omega
    obtain ⟨vs, hdrop, hweights, hvs⟩ := emitted_drop hwritten hlen htake
    refine ⟨vs, hdrop, hvs, ?_⟩
    rw [weights_cons, weight_raw (by decide)] at hweights
    omega

theorem length_emit_pos {u : LiteralChar} (h : u.Written) : 1 ≤ u.emit.length := by
  cases u with
  | raw c => exact le_rfl
  | escape e => exact Nat.le_add_left 1 1
  | hex a b => exact Nat.le_add_left 1 _

/-- What C reads behind a backslash that a trigraph has left. -/
theorem body_backslash_emitted {quote : Char} (hquote : quote ≠ '\\') {us : List LiteralChar}
    (hus : ∀ u ∈ us, u.Written) {bytes : List ℕ}
    (h : body quote 0 ('\\' :: emitted quote us) = some bytes) :
    ∃ b vs bs, body quote 0 (emitted quote vs) = some bs ∧ bytes = b ++ bs ∧ b ≠ [] ∧
      (∀ u ∈ vs, u.Written) ∧ (emitted quote vs).length ≤ (emitted quote us).length ∧
      b.length + weights vs ≤ weights us + 3 ∧
      (b.head? ≠ some 92 → b.length + weights vs ≤ weights us) := by
  obtain ⟨b, k, bs, hescape, hbs, rfl⟩ := body_backslash_some hquote h
  obtain ⟨vs, hdrop, hvs, hle, hless⟩ :=
    emitted_escape hquote hus hescape (le_of_body_drop hbs)
  have hshort : (emitted quote vs).length ≤ (emitted quote us).length := by
    rw [← hdrop, List.length_drop]
    omega
  rw [hdrop] at hbs
  exact ⟨b, vs, bs, hbs, rfl, (escape_spec hescape).2.1, hvs, hshort, hle, hless⟩

/-- What C reads behind the backslash of `\0`. -/
theorem body_zero_emitted {quote : Char} (hquote : quote ≠ '\\') {us : List LiteralChar}
    (hus : ∀ u ∈ us, u.Written) {bytes : List ℕ}
    (h : body quote 0 ('\\' :: '0' :: emitted quote us) = some bytes) :
    ∃ b k vs bs, escape ('0' :: emitted quote us) = some (b, k) ∧
      body quote 0 (emitted quote vs) = some bs ∧ bytes = b ++ bs ∧
      (∀ u ∈ vs, u.Written) ∧ (emitted quote vs).length ≤ (emitted quote us).length ∧
      b.length + weights vs + k ≤ weights us + 2 := by
  obtain ⟨b, k, bs, hescape, hbs, rfl⟩ := body_backslash_some hquote h
  have hraw : '0' :: emitted quote us = emitted quote (.raw '0' :: us) := by
    rw [emitted_cons]
    rfl
  have hk : k ≤ (us.flatMap LiteralChar.emit).length + 1 := by
    rw [hraw] at hbs
    have hle := le_of_body_drop hbs
    rw [List.flatMap_cons, List.length_append] at hle
    exact hle.trans (Nat.add_comm _ _).le
  obtain ⟨vs, hdrop, hvs, hle⟩ := emitted_zero hus hescape hk
  have hone := (escape_spec hescape).1
  have hshort : (emitted quote vs).length ≤ (emitted quote us).length := by
    rw [← hdrop, List.length_drop, List.length_cons]
    omega
  rw [hdrop] at hbs
  exact ⟨b, k, vs, bs, hescape, hbs, rfl, hvs, hshort, hle⟩

/-- How C goes on behind a character. -/
theorem body_emit_cases {quote : Char} (hquote : quote ≠ '\\') {u : LiteralChar}
    (hu : u.Written) {s : List Char} (hs : s ≠ []) :
    body quote 0 (u.emit ++ s) = (body quote 0 s).map (u.value :: ·) ∨ u = .raw '\\' ∨
      u = .escape '0' ∨ body quote 0 (u.emit ++ s) = none := by
  cases u with
  | raw c =>
      by_cases hc : c ≠ quote ∧ c ≠ '\n' ∧ c ≠ '\\'
      · exact Or.inl (body_raw hc s)
      · by_cases hb : c = '\\'
        · exact Or.inr (Or.inl (congrArg _ hb))
        · right; right; right
          change body quote 0 (c :: s) = none
          rw [body]
          split_ifs with hq hn
          · rfl
          · rfl
          · exact absurd ⟨hq, hn, hb⟩ hc
  | escape e =>
      by_cases he : e = '0'
      · exact Or.inr (Or.inr (Or.inl (congrArg _ he)))
      · have hvalid : (LiteralChar.escape e).Valid quote := hu
        exact Or.inl (body_emit hquote hvalid fun h ↦ absurd (LiteralChar.escape.inj h) he)
  | hex a b =>
      have hvalid : (LiteralChar.hex a b).Valid quote := hu
      exact Or.inl (body_emit hquote hvalid fun h ↦ by cases h)

/-- C reads no more bytes than the literal has characters. -/
theorem length_body_le {quote : Char} (hquote : quote ≠ '\\') {us : List LiteralChar}
    (hus : ∀ u ∈ us, u.Written) {bytes : List ℕ}
    (h : body quote 0 (emitted quote us) = some bytes) : bytes.length ≤ weights us := by
  induction hn : (emitted quote us).length using Nat.strong_induction_on
    generalizing us bytes with
  | _ n ih =>
      cases us with
      | nil =>
          rw [emitted_nil, body, if_pos rfl, if_pos rfl] at h
          cases h
          exact Nat.zero_le _
      | cons u us =>
          obtain ⟨hu, hrest⟩ := List.forall_mem_cons.mp hus
          have hlt : (emitted quote us).length < n := by
            rw [← hn, emitted_cons, List.length_append]
            have hpos := length_emit_pos hu
            omega
          rw [emitted_cons] at h
          rw [weights_cons]
          rcases body_emit_cases hquote hu (emitted_ne_nil quote us) with hread | rfl | rfl | hnone
          · rw [hread] at h
            obtain ⟨bs, hbs, rfl⟩ := Option.map_eq_some_iff.mp h
            have hle := ih _ hlt hrest hbs rfl
            have hpos := weight_pos u
            rw [List.length_cons]
            omega
          · obtain ⟨b, vs, bs, hbs, rfl, -, hvs, hshort, hle, -⟩ :=
              body_backslash_emitted hquote hrest h
            have hlen := ih _ (hshort.trans_lt hlt) hvs hbs rfl
            have hweight : weight (.raw '\\') = 3 := rfl
            rw [List.length_append]
            omega
          · obtain ⟨b, k, vs, bs, hescape, hbs, rfl, hvs, hshort, hle⟩ :=
              body_zero_emitted hquote hrest h
            have hlen := ih _ (hshort.trans_lt hlt) hvs hbs rfl
            have hone := (escape_spec hescape).1
            have hpos := weight_pos (.escape '0')
            rw [List.length_append]
            omega
          · rw [hnone] at h
            cases h

/-! ## Trigraphs -/

/-- The characters with their trigraphs replaced. -/
def replaced : List LiteralChar → List LiteralChar
  | [] => []
  | .raw '?' :: .raw '?' :: .raw c :: us =>
      match trigraph c with
      | some r => .raw r :: replaced us
      | none => .raw '?' :: replaced (.raw '?' :: .raw c :: us)
  | u :: us => u :: replaced us

theorem trigraphs_cons {a : Char} {s : List Char}
    (h : a = '?' → ∀ c s', s = '?' :: c :: s' → trigraph c = none) :
    trigraphs (a :: s) = a :: trigraphs s := by
  rw [trigraphs.eq_def]
  split
  · rename_i heq
    cases heq
  · rename_i c s' heq
    obtain ⟨rfl, rfl⟩ := List.cons.inj heq
    rw [h rfl c s' rfl]
  · rename_i heq
    obtain ⟨rfl, rfl⟩ := List.cons.inj heq
    rfl

/-- No character but a raw `?` begins a trigraph. -/
theorem trigraphs_append {s : List Char} (hs : '?' ∉ s) (s' : List Char) :
    trigraphs (s ++ s') = s ++ trigraphs s' := by
  induction s with
  | nil => rfl
  | cons a s ih =>
      rw [List.mem_cons, not_or] at hs
      rw [List.cons_append, trigraphs_cons fun h ↦ absurd h.symm hs.1, ih hs.2]
      rfl

theorem not_mem_emit {u : LiteralChar} (hu : u.Written) (hraw : u ≠ .raw '?') : '?' ∉ u.emit := by
  cases u with
  | raw c =>
      intro hmem
      exact hraw (congrArg _ (List.mem_singleton.mp hmem).symm)
  | escape e =>
      intro hmem
      simp only [LiteralChar.emit, List.mem_cons, List.not_mem_nil, or_false] at hmem
      rcases hmem with hmem | rfl
      · cases hmem
      · exact absurd (show '?' ∈ escapes from hu) (by decide)
  | hex a b =>
      obtain ⟨x, y, z, heq, hx, hy, hz, -⟩ := octal_spec _ (hex_lt hu)
      intro hmem
      simp only [LiteralChar.emit, heq, List.mem_cons, List.not_mem_nil, or_false] at hmem
      rcases hmem with hmem | rfl | rfl | rfl
      · cases hmem
      · cases hx
      · cases hy
      · cases hz

/-- Trigraphs are made of raw characters alone. -/
theorem trigraphs_emitted {quote : Char} {us : List LiteralChar} (hus : ∀ u ∈ us, u.Written)
    (hquote : trigraph quote = none ∨ us.length ≤ 1) (hne : quote ≠ '?') :
    trigraphs (emitted quote us) = emitted quote (replaced us) := by
  fun_induction replaced us with
  | case1 => exact trigraphs_cons fun h ↦ absurd h hne
  | case2 c us r hr ih =>
      have hnone : trigraph quote = none := by
        apply hquote.resolve_right
        simp
      have hrest : ∀ u ∈ us, u.Written := fun u hu ↦ hus u (by simp [hu])
      rw [emitted_cons, emitted_cons quote (.raw r), ← ih hrest (Or.inl hnone)]
      change trigraphs ('?' :: '?' :: c :: emitted quote us) = r :: trigraphs (emitted quote us)
      rw [trigraphs, hr]
  | case3 c us hr ih =>
      have hnone : trigraph quote = none := by
        apply hquote.resolve_right
        simp
      have hrest : ∀ u ∈ LiteralChar.raw '?' :: .raw c :: us, u.Written :=
        fun u hu ↦ hus u (List.mem_cons_of_mem _ hu)
      rw [emitted_cons, emitted_cons quote (.raw '?') (replaced _), ← ih hrest (Or.inl hnone)]
      change trigraphs ('?' :: '?' :: c :: emitted quote us) =
        '?' :: trigraphs ('?' :: c :: emitted quote us)
      rw [trigraphs, hr]
  | case4 u us hno ih =>
      obtain ⟨hu, hrest⟩ := List.forall_mem_cons.mp hus
      have hlen : trigraph quote = none ∨ us.length ≤ 1 :=
        hquote.imp_right fun h ↦ (Nat.le_succ _).trans h
      rw [emitted_cons, emitted_cons, ← ih hrest hlen]
      by_cases hraw : u = .raw '?'
      · subst hraw
        refine trigraphs_cons fun _ c s' heq ↦ ?_
        cases us with
        | nil => cases heq
        | cons v us =>
            have hv : v = .raw '?' := by
              by_contra hv
              have hmem := not_mem_emit (hrest v List.mem_cons_self) hv
              have hpos := length_emit_pos (hrest v List.mem_cons_self)
              rw [emitted_cons] at heq
              cases hemit : v.emit with
              | nil =>
                  rw [hemit] at hpos
                  cases hpos
              | cons x xs =>
                  rw [hemit] at hmem heq
                  injection heq with hx _
                  exact hmem (hx ▸ List.mem_cons_self)
            subst hv
            cases us with
            | nil =>
                injection heq with _ heq
                injection heq with heq _
                rw [← heq]
                exact hquote.resolve_right (by simp)
            | cons w us =>
                cases w with
                | raw d => exact (hno d us rfl rfl).elim
                | escape e =>
                    injection heq with _ heq
                    injection heq with heq _
                    rw [← heq]
                    rfl
                | hex a b =>
                    injection heq with _ heq
                    injection heq with heq _
                    rw [← heq]
                    rfl
      · exact trigraphs_append (not_mem_emit hu hraw) _

theorem trigraph_spec {c r : Char} (h : trigraph c = some r) :
    r ≠ '"' ∧ r ≠ '\'' ∧ r ≠ '\n' ∧ r.toNat ≠ 63 ∧ isOctalDigit r = false := by
  revert h
  fun_cases trigraph c with
  | case10 => rintro ⟨⟩
  | _ =>
      rintro ⟨⟩
      decide

/-! ## What C reads -/

theorem faithful_cons {u : LiteralChar} {us : List LiteralChar} : Faithful (u :: us) ↔
    (u = .escape '0' → ∀ d, us.head? = some (.raw d) → isOctalDigit d = false) ∧
      (∀ c, (trigraph c).isSome = true → ¬ [.raw '?', .raw '?', .raw c] <+: u :: us) ∧
      Faithful us := by
  constructor
  · rintro ⟨hzero, hquestion⟩
    refine ⟨?_, fun c hc hpre ↦ hquestion c hc hpre.isInfix,
      fun d hd hin ↦ hzero d hd (List.infix_cons hin),
      fun c hc hin ↦ hquestion c hc (List.infix_cons hin)⟩
    rintro rfl d hd
    rw [Bool.eq_false_iff]
    intro hoctal
    cases us with
    | nil => cases hd
    | cons v us =>
        cases hd
        exact hzero d hoctal ⟨[], us, rfl⟩
  · rintro ⟨hzero, hquestion, hrest⟩
    constructor
    · intro d hd hin
      rcases List.infix_cons_iff.mp hin with hpre | hin
      · obtain ⟨heq, hpre⟩ := List.cons_prefix_cons.mp hpre
        obtain ⟨us', rfl⟩ := hpre
        rw [hzero heq.symm d rfl] at hd
        cases hd
      · exact hrest.zero d hd hin
    · intro c hc hin
      rcases List.infix_cons_iff.mp hin with hpre | hin
      · exact hquestion c hc hpre
      · exact hrest.question c hc hin

theorem Valid.weight {quote : Char} {u : LiteralChar} (h : u.Valid quote) : weight u = 1 := by
  cases u with
  | raw c => exact weight_raw h.2.2
  | escape e => rfl
  | hex a b => rfl

theorem weights_replaced_le {quote : Char} {us : List LiteralChar}
    (hus : ∀ u ∈ us, u.Valid quote) : weights (replaced us) ≤ us.length := by
  fun_induction replaced us with
  | case1 => exact le_rfl
  | case2 c us r hr ih =>
      have hle := ih fun u hu ↦ hus u (by simp [hu])
      have hr : weight (.raw r) ≤ 3 := by
        rw [weight]
        split <;> omega
      simp only [weights_cons, List.length_cons]
      omega
  | case3 c us hr ih =>
      have hle := ih fun u hu ↦ hus u (List.mem_cons_of_mem _ hu)
      have hone : weight (.raw '?') = 1 := rfl
      rw [weights_cons, List.length_cons]
      omega
  | case4 u us hno ih =>
      obtain ⟨hu, hrest⟩ := List.forall_mem_cons.mp hus
      have hle := ih hrest
      have hone := Valid.weight hu
      rw [weights_cons, List.length_cons]
      omega

theorem replaced_written {quote : Char} {us : List LiteralChar}
    (hus : ∀ u ∈ us, u.Valid quote) : ∀ u ∈ replaced us, u.Written := by
  fun_induction replaced us with
  | case1 => exact fun u hu ↦ absurd hu List.not_mem_nil
  | case2 c us r hr ih =>
      exact List.forall_mem_cons.mpr ⟨trivial, ih fun u hu ↦ hus u (by simp [hu])⟩
  | case3 c us hr ih =>
      exact List.forall_mem_cons.mpr ⟨trivial, ih fun u hu ↦ hus u (List.mem_cons_of_mem _ hu)⟩
  | case4 u us hno ih =>
      obtain ⟨hu, hrest⟩ := List.forall_mem_cons.mp hus
      exact List.forall_mem_cons.mpr ⟨hu.written, ih hrest⟩

/-- An octal digit is in front of the emitted text if the literal has it there. -/
theorem head?_emitted_replaced {quote d : Char} (hquote : isOctalDigit quote = false)
    (hd : isOctalDigit d = true) {us : List LiteralChar} (hus : ∀ u ∈ us, u.Valid quote) :
    (emitted quote (replaced us)).head? = some d ↔ us.head? = some (.raw d) := by
  fun_cases replaced us with
  | case1 =>
      simp only [emitted_nil, List.head?_cons, List.head?_nil, Option.some.injEq, reduceCtorEq,
        iff_false]
      rintro rfl
      rw [hquote] at hd
      cases hd
  | case2 c us r hr =>
      have hoctal := (trigraph_spec hr).2.2.2.2
      constructor
      · intro h
        cases h
        rw [hoctal] at hd
        cases hd
      · intro h
        cases h
        cases hd
  | case3 c us hr =>
      constructor
      · intro h
        cases h
        cases hd
      · intro h
        cases h
        cases hd
  | case4 u us hno =>
      rw [emitted_cons, List.head?_cons, Option.some.injEq]
      cases u with
      | raw c =>
          constructor
          · intro h
            cases h
            rfl
          · intro h
            cases h
            rfl
      | escape e =>
          constructor
          · intro h
            cases h
            cases hd
          · intro h
            cases h
      | hex a b =>
          constructor
          · intro h
            cases h
            cases hd
          · intro h
            cases h

/-- One character that begins no trigraph. -/
theorem body_replaced_cons {quote : Char} (hquote : quote = '"' ∨ quote = '\'')
    {u : LiteralChar} {us : List LiteralChar} (hu : u.Valid quote)
    (hus : ∀ u ∈ us, u.Valid quote)
    (hpre : ∀ c, (trigraph c).isSome = true → ¬ [.raw '?', .raw '?', .raw c] <+: u :: us)
    (ih : body quote 0 (emitted quote (replaced us)) = some (us.map LiteralChar.value) ↔
      Faithful us) :
    body quote 0 (emitted quote (u :: replaced us)) =
      some ((u :: us).map LiteralChar.value) ↔ Faithful (u :: us) := by
  have hbackslash : quote ≠ '\\' := by
    rcases hquote with rfl | rfl <;> decide
  have hdigit : isOctalDigit quote = false := by
    rcases hquote with rfl | rfl <;> rfl
  rw [faithful_cons, emitted_cons]
  by_cases hzero : u = .escape '0' → ∀ d, us.head? = some (.raw d) → isOctalDigit d = false
  · have hread := body_emit hbackslash hu (s := emitted quote (replaced us)) fun heq d hd ↦ by
      rw [Bool.eq_false_iff]
      intro hoctal
      have hhead := (head?_emitted_replaced hdigit hoctal hus).mp hd
      rw [hzero heq d hhead] at hoctal
      cases hoctal
    rw [hread, List.map_cons, Option.map_eq_some_iff, ← ih]
    constructor
    · rintro ⟨bs, hbs, heq⟩
      rw [(List.cons.inj heq).2] at hbs
      exact ⟨hzero, hpre, hbs⟩
    · rintro ⟨-, -, hbs⟩
      exact ⟨_, hbs, rfl⟩
  · refine iff_of_false ?_ fun h ↦ hzero h.1
    push Not at hzero
    obtain ⟨rfl, d, hd, hoctal⟩ := hzero
    rw [Ne, Bool.not_eq_false] at hoctal
    intro h
    have hwritten := replaced_written hus
    have hhead := (head?_emitted_replaced hdigit hoctal hus).mpr hd
    obtain ⟨b, k, vs, bs, hescape, hbs, heq, hvs, -, hle⟩ :=
      body_zero_emitted hbackslash hwritten h
    have htwo := two_le_of_escape_zero hhead hoctal hescape
    have hlen := length_body_le hbackslash hvs hbs
    have hweights := weights_replaced_le hus
    have hbytes := congrArg List.length heq
    rw [List.length_append, List.length_map, List.length_cons] at hbytes
    omega

/-- C reads the characters of a literal as they are meant if and only if no octal digit stands
behind a zero and there are no trigraphs. -/
theorem body_replaced_iff {quote : Char} (hquote : quote = '"' ∨ quote = '\'')
    {us : List LiteralChar} (hus : ∀ u ∈ us, u.Valid quote) :
    body quote 0 (emitted quote (replaced us)) = some (us.map LiteralChar.value) ↔
      Faithful us := by
  have hbackslash : quote ≠ '\\' := by
    rcases hquote with rfl | rfl <;> decide
  fun_induction replaced us with
  | case1 =>
      refine iff_of_true ?_ ⟨?_, ?_⟩
      · rw [emitted_nil, body, if_pos rfl, if_pos rfl]
        rfl
      · intro d _ hin
        cases List.infix_nil.mp hin
      · intro c _ hin
        cases List.infix_nil.mp hin
  | case2 c us r hr ih =>
      refine iff_of_false (fun h ↦ ?_) fun h ↦ ?_
      · have hrest : ∀ u ∈ us, u.Valid quote := fun u hu ↦ hus u (by simp [hu])
        obtain ⟨hdouble, hsingle, hnewline, hquestion, -⟩ := trigraph_spec hr
        rw [emitted_cons] at h
        change body quote 0 (r :: emitted quote (replaced us)) = _ at h
        have hne : r ≠ quote := by
          rcases hquote with rfl | rfl
          · exact hdouble
          · exact hsingle
        by_cases hr : r = '\\'
        · rw [hr] at h
          obtain ⟨b, vs, bs, hbs, heq, hb, hvs, -, -, hle⟩ :=
            body_backslash_emitted hbackslash (replaced_written hrest) h
          have hhead : b.head? = some 63 := by
            rw [← List.head?_append_of_ne_nil b hb, ← heq]
            rfl
          have hle := hle (by rw [hhead]; decide)
          have hlen := length_body_le hbackslash hvs hbs
          have hweights := weights_replaced_le hrest
          have hbytes := congrArg List.length heq
          simp only [List.length_append, List.length_map, List.length_cons] at hbytes
          omega
        · rw [body_raw ⟨hne, hnewline, hr⟩] at h
          obtain ⟨bs, -, heq⟩ := Option.map_eq_some_iff.mp h
          exact hquestion (List.cons.inj heq).1
      · exact h.question c (by rw [hr]; rfl) ⟨[], us, rfl⟩
  | case3 c us hr ih =>
      obtain ⟨hu, hrest⟩ := List.forall_mem_cons.mp hus
      refine body_replaced_cons hquote hu hrest (fun c' hc' hpre ↦ ?_) (ih hrest)
      obtain ⟨-, hpre⟩ := List.cons_prefix_cons.mp hpre
      obtain ⟨-, hpre⟩ := List.cons_prefix_cons.mp hpre
      obtain ⟨heq, -⟩ := List.cons_prefix_cons.mp hpre
      injection heq with heq
      rw [heq, hr] at hc'
      cases hc'
  | case4 u us hno ih =>
      obtain ⟨hu, hrest⟩ := List.forall_mem_cons.mp hus
      refine body_replaced_cons hquote hu hrest (fun c hc hpre ↦ ?_) (ih hrest)
      obtain ⟨heq, us', hus'⟩ := List.cons_prefix_cons.mp hpre
      exact hno c us' heq.symm hus'.symm

end C11

/-! ## Literals of a source -/

theorem spelled_of_lex {file : List Char} {tokens : List (Token × Loc)}
    (h : lex file = some tokens) {t : Token} {l : Loc} (ht : (t, l) ∈ tokens)
    (hkind : t.kind ≠ .eof) : Spelled t := by
  rw [lex] at h
  split at h
  · cases h
  · rename_i ls hscan
    dsimp only at h
    split at h
    · cases h
      have hmem := List.mem_map_of_mem (f := Prod.fst) ht
      rw [tokensAt_map_fst, List.mem_append, List.mem_singleton] at hmem
      rcases hmem with hmem | rfl
      · exact spelled_of_allEnd (Tokenizer.allEnd_of_scan hscan).2 t (mem_of_tokensOf hmem)
      · exact absurd rfl hkind
    · cases h

/-- A literal behind its quote. -/
theorem Spelled.literal_eq {t : Token} (h : Spelled t) (hkind : t.kind = .string ∨ t.kind = .char) :
    ∃ quote us, (quote = '"' ∨ quote = '\'') ∧ t.literalChars = us ∧
      (∀ u ∈ us, u.Valid quote) ∧ Cgen.literal t.text = quote :: emitted quote us ∧
      (C11.trigraph quote = none ∨ us.length ≤ 1) := by
  cases reads_of_lexeme h with
  | id => rcases hkind with hkind | hkind <;> cases hkind
  | op => rcases hkind with hkind | hkind <;> cases hkind
  | number _ _ hnumber =>
      rcases hkind with hkind | hkind <;> rcases hnumber with hnumber | hnumber <;>
        rw [hkind] at hnumber <;> cases hnumber
  | @literal t quote body hquote _ htext hread =>
      have hliteral := hread []
      rw [List.append_nil] at hliteral
      obtain ⟨body', count, hbody, htext'⟩ := literal_text hliteral
      rw [htext] at htext'
      injection htext' with _ htext'
      subst htext'
      obtain ⟨hbodytext, hvalid, hcount⟩ := literalBody_chars hbody
      have hbackslash : quote ≠ '\\' := by
        rcases hquote with rfl | rfl <;> decide
      refine ⟨quote, literalChars quote body, hquote, ?_, hvalid, ?_, ?_⟩
      · rw [Token.literalChars, htext]
      · rw [htext, Cgen.literal_cons hbackslash, ← Cgen.literal_text hbackslash hvalid,
          ← hbodytext]
      · rcases hquote with rfl | rfl
        · exact Or.inl rfl
        · right
          rw [literal, hbody] at hliteral
          dsimp only at hliteral
          rw [if_pos rfl] at hliteral
          split at hliteral
          · rename_i hone
            exact (hcount.trans hone).le
          · cases hliteral

/-- The C text of a literal is read as the bytes of the literal if and only if no octal digit
stands behind a `\0` and there are no trigraphs. -/
theorem literal_denotes_iff {file : List Char} {tokens : List (Token × Loc)}
    (h : lex file = some tokens) {t : Token} {l : Loc} (ht : (t, l) ∈ tokens)
    (hkind : t.kind = .string ∨ t.kind = .char) : Denotes t ↔ Faithful t.literalChars := by
  have hspelled := spelled_of_lex h ht (by rcases hkind with hkind | hkind <;> rw [hkind] <;> decide)
  obtain ⟨quote, us, hquote, hchars, hvalid, hemit, hlen⟩ := hspelled.literal_eq hkind
  have hquestion : quote ≠ '?' := by
    rcases hquote with rfl | rfl <;> decide
  have hread : C11.literal (Cgen.literal t.text) =
      C11.body quote 0 (emitted quote (C11.replaced us)) := by
    rw [hemit, C11.literal, C11.trigraphs_cons fun heq ↦ absurd heq hquestion,
      C11.trigraphs_emitted (fun u hu ↦ (hvalid u hu).written) hlen hquestion]
    exact if_pos hquote
  rw [Denotes, tcString, hchars, hread, ← C11.body_replaced_iff hquote hvalid]
  constructor
  · exact fun hbytes ↦ hbytes.1
  · intro hbytes
    refine ⟨hbytes, fun _ ↦ ?_⟩
    rw [hbytes, Option.map_some, List.length_append, List.length_map]
    rfl

theorem literal_denotes_shown : Denotes ⟨.string, "\"\\x41\\0A??:\"".toList⟩ ↔
    Faithful (Token.literalChars ⟨.string, "\"\\x41\\0A??:\"".toList⟩) :=
  literal_denotes_iff
    (show lex "\"\\x41\\0A??:\"".toList = some [(⟨.string, "\"\\x41\\0A??:\"".toList⟩, ⟨1, 1⟩),
      (⟨.eof, []⟩, ⟨1, 13⟩)] by decide +kernel)
    List.mem_cons_self (Or.inl rfl)

/-- `"\01"` and `"??="` have one byte in C. -/
theorem literals_merge :
    (lex "\"\\01\"\"??=\"".toList).map (·.map Prod.fst) =
        some [⟨.string, "\"\\01\"".toList⟩, ⟨.string, "\"??=\"".toList⟩, ⟨.eof, []⟩] ∧
      tcString (Cgen.literal "\"\\01\"".toList) = some ([1], 1) ∧
      ¬ Denotes ⟨.string, "\"\\01\"".toList⟩ ∧
      tcString (Cgen.literal "\"??=\"".toList) = some ([35], 1) ∧
      ¬ Denotes ⟨.string, "\"??=\"".toList⟩ := by
  refine ⟨by decide +kernel, by decide +kernel, ?_, by decide +kernel, ?_⟩
  · intro h
    exact absurd h.1 (by decide +kernel)
  · intro h
    exact absurd h.1 (by decide +kernel)

end TinyCPlus.Compiler
