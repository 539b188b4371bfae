import TinyCPlus.Library.Tokenizer

/-!
# The lexer (`lexer.c`)

A byte of the source is a character of its code.  `lex` splits the source
into blanks, comments and tokens, one lexeme at a time; a lexical error is
`none`.
-/

namespace TinyCPlus.Compiler

open TinyCPlus.Library

inductive TokenKind where
  | eof | id | int | float | string | char | op
deriving DecidableEq, Repr

structure Token where
  kind : TokenKind
  text : List Char
deriving DecidableEq, Repr

structure Loc where
  line : ℕ
  col : ℕ
deriving DecidableEq, Repr

/-- The position behind a text. -/
def Loc.advance (l : Loc) : List Char → Loc
  | [] => l
  | '\n' :: s => Loc.advance ⟨l.line + 1, 1⟩ s
  | _ :: s => Loc.advance ⟨l.line, l.col + 1⟩ s

/-- What is read at one position. -/
inductive Lexeme where
  | blank (c : Char)
  | comment (text : List Char)
  | token (t : Token)
deriving DecidableEq, Repr

def Lexeme.text : Lexeme → List Char
  | .blank c => [c]
  | .comment text => text
  | .token t => t.text

/-! ## Character classes of the C locale -/

def isSpace (c : Char) : Bool := c == ' ' || (9 ≤ c.toNat && c.toNat ≤ 13)

def isHexDigit (c : Char) : Bool :=
  c.isDigit || ('a' ≤ c && c ≤ 'f') || ('A' ≤ c && c ≤ 'F')

def isIdStart (c : Char) : Bool := c.isAlpha || c == '_'

def isIdChar (c : Char) : Bool := c.isAlphanum || c == '_'

/-! ## Comments -/

/-- A block comment from inside `level` opening marks to the end of the last. -/
def blockComment : ℕ → List Char → Option (List Char)
  | 0, _ => some []
  | _ + 1, [] => none
  | level + 1, '/' :: '*' :: s => (blockComment (level + 2) s).map fun t ↦ '/' :: '*' :: t
  | level + 1, '*' :: '/' :: s => (blockComment level s).map fun t ↦ '*' :: '/' :: t
  | level + 1, c :: s => (blockComment (level + 1) s).map fun t ↦ c :: t

/-! ## Numbers -/

/-- The point of a number and the digits behind it; `..` is no point. -/
def fraction : List Char → List Char
  | '.' :: s => if s.head? = some '.' then [] else '.' :: s.takeWhile Char.isDigit
  | _ => []

def exponentSign : List Char → List Char
  | c :: _ => if c == '+' || c == '-' then [c] else []
  | [] => []

/-- The exponent of a number, if there is one; it needs digits. -/
def exponent : List Char → Option (List Char)
  | c :: s =>
      if c == 'e' || c == 'E' then
        let sign := exponentSign s
        let digits := (s.drop sign.length).takeWhile Char.isDigit
        if digits = [] then none else some (c :: sign ++ digits)
      else some []
  | [] => some []

def decimal (s : List Char) : Option Token :=
  let whole := s.takeWhile Char.isDigit
  let point := fraction (s.drop whole.length)
  (exponent (s.drop (whole ++ point).length)).map fun power ↦
    ⟨if point = [] ∧ power = [] then .int else .float, whole ++ point ++ power⟩

def isHexPrefix : List Char → Bool
  | '0' :: x :: _ => x == 'x' || x == 'X'
  | _ => false

def hexadecimal (s : List Char) : Option Token :=
  let digits := (s.drop 2).takeWhile isHexDigit
  if digits = [] then none else some ⟨.int, s.take 2 ++ digits⟩

def number (s : List Char) : Option Token :=
  match if isHexPrefix s then hexadecimal s else decimal s with
  | none => none
  | some t => if (s.drop t.text.length).head?.any isIdStart then none else some t

/-! ## Literals -/

def escapes : List Char := "abfnrtv\\\"'0".toList

/-- A literal behind its opening quote: its text, and how many characters it
stands for. -/
def literalBody (quote : Char) : List Char → Option (List Char × ℕ)
  | [] => none
  | c :: s =>
      if c = quote then some ([c], 0)
      else if c = '\n' ∨ c = '\r' then none
      else if c = '\\' then
        match s with
        | 'x' :: a :: b :: s =>
            if isHexDigit a ∧ isHexDigit b then
              (literalBody quote s).map fun r ↦ (c :: 'x' :: a :: b :: r.1, r.2 + 1)
            else none
        | e :: s =>
            if e ∈ escapes then (literalBody quote s).map fun r ↦ (c :: e :: r.1, r.2 + 1)
            else none
        | [] => none
      else (literalBody quote s).map fun r ↦ (c :: r.1, r.2 + 1)

def literal (quote : Char) (s : List Char) : Option Token :=
  match literalBody quote s with
  | none => none
  | some (body, count) =>
      if quote = '\'' then if count = 1 then some ⟨.char, quote :: body⟩ else none
      else some ⟨.string, quote :: body⟩

/-! ## Operators -/

/-- `ops`, tried in this order. -/
def ops : List (List Char) :=
  [">>=", "<<=", "...", "==", "!=", "<=", ">=", "&&", "||", "++", "--", "+=", "-=", "*=", "/=",
    "%=", "&=", "|=", "^=", "<<", ">>", "->", "=>", "::"].map String.toList

def singleOps : List Char := "+-*/%=<>!&|^~(){}[];,.:?@".toList

def operator (s : List Char) : Option (List Char) :=
  match ops.find? (·.isPrefixOf s) with
  | some op => some op
  | none =>
      match s with
      | c :: _ => if c ∈ singleOps then some [c] else none
      | [] => none

/-! ## The lexer -/

/-- One turn of the loop of `lex`. -/
def lexeme : List Char → Option Lexeme
  | [] => none
  | c :: s =>
      if isSpace c then some (.blank c)
      else if c = '/' ∧ s.head? = some '/' then
        some (.comment ((c :: s).takeWhile (· != '\n')))
      else if c = '/' ∧ s.head? = some '*' then
        (blockComment 1 s.tail).map fun t ↦ .comment ('/' :: '*' :: t)
      else if isIdStart c then some (.token ⟨.id, (c :: s).takeWhile isIdChar⟩)
      else if c.isDigit then (number (c :: s)).map .token
      else if c = '"' ∨ c = '\'' then (literal c s).map .token
      else (operator (c :: s)).map fun op ↦ .token ⟨.op, op⟩

theorem append_prefix_of_drop {α : Type*} {a b s : List α} (ha : a <+: s)
    (hb : b <+: s.drop a.length) : a ++ b <+: s := by
  obtain ⟨r, rfl⟩ := ha
  rw [List.drop_left] at hb
  exact (List.prefix_append_right_inj a).mpr hb

theorem blockComment_isPrefix {level : ℕ} {s t : List Char}
    (h : blockComment level s = some t) : t <+: s := by
  fun_induction blockComment level s generalizing t with
  | case1 => cases h; exact List.nil_prefix
  | case2 => cases h
  | case3 level s ih =>
      obtain ⟨t, ht, rfl⟩ := Option.map_eq_some_iff.mp h
      simpa using ih ht
  | case4 level s ih =>
      obtain ⟨t, ht, rfl⟩ := Option.map_eq_some_iff.mp h
      simpa using ih ht
  | case5 level c s _ _ ih =>
      obtain ⟨t, ht, rfl⟩ := Option.map_eq_some_iff.mp h
      simpa using ih ht

theorem fraction_isPrefix (s : List Char) : fraction s <+: s := by
  fun_cases fraction s with
  | case1 => exact List.nil_prefix
  | case2 s _ => simpa using List.takeWhile_prefix _
  | case3 => exact List.nil_prefix

theorem exponentSign_isPrefix (s : List Char) : exponentSign s <+: s := by
  fun_cases exponentSign s with
  | case1 c s _ => simp
  | case2 => exact List.nil_prefix
  | case3 => exact List.nil_prefix

theorem exponent_isPrefix {s t : List Char} (h : exponent s = some t) : t <+: s := by
  revert h
  fun_cases exponent s with
  | case1 c s _ sign digits hdigits => rintro ⟨⟩
  | case2 c s _ sign digits hdigits =>
      rintro ⟨⟩
      have htail := append_prefix_of_drop (exponentSign_isPrefix s)
        (List.takeWhile_prefix (l := s.drop (exponentSign s).length) Char.isDigit)
      simpa using htail
  | case3 => rintro ⟨⟩; exact List.nil_prefix
  | case4 => rintro ⟨⟩; exact List.nil_prefix

theorem decimal_isPrefix {s : List Char} {t : Token} (h : decimal s = some t) :
    t.text <+: s := by
  rw [decimal] at h
  obtain ⟨power, hpower, rfl⟩ := Option.map_eq_some_iff.mp h
  exact append_prefix_of_drop (append_prefix_of_drop (List.takeWhile_prefix _)
    (fraction_isPrefix _)) (exponent_isPrefix hpower)

theorem hexadecimal_isPrefix {s : List Char} {t : Token} (h : hexadecimal s = some t) :
    t.text <+: s := by
  rw [hexadecimal] at h
  split at h
  · cases h
  · cases h
    have hdigits := (List.takeWhile_prefix (l := s.drop 2) isHexDigit)
    have htail := (List.prefix_append_right_inj (s.take 2)).mpr hdigits
    rwa [List.take_append_drop] at htail

theorem number_isPrefix {s : List Char} {t : Token} (h : number s = some t) :
    t.text <+: s := by
  rw [number] at h
  split at h
  · cases h
  · rename_i t' ht'
    split at h
    · cases h
    · cases h
      split at ht'
      · exact hexadecimal_isPrefix ht'
      · exact decimal_isPrefix ht'

theorem literalBody_isPrefix {quote : Char} {s body : List Char} {count : ℕ}
    (h : literalBody quote s = some (body, count)) : body <+: s := by
  fun_induction literalBody quote s generalizing body count with
  | case1 => cases h
  | case2 => cases h; simp
  | case3 => cases h
  | case4 _ _ a b s _ ih =>
      obtain ⟨⟨body, n⟩, hbody, heq⟩ := Option.map_eq_some_iff.mp h
      cases heq
      simpa using ih hbody
  | case5 => cases h
  | case6 _ _ e s _ _ ih =>
      obtain ⟨⟨body, n⟩, hbody, heq⟩ := Option.map_eq_some_iff.mp h
      cases heq
      simpa using ih hbody
  | case7 => cases h
  | case8 => cases h
  | case9 c s _ _ _ ih =>
      obtain ⟨⟨body, n⟩, hbody, heq⟩ := Option.map_eq_some_iff.mp h
      cases heq
      simpa using ih hbody

theorem operator_isPrefix {s op : List Char} (h : operator s = some op) :
    op <+: s ∧ op ≠ [] := by
  unfold operator at h
  split at h
  · rename_i op' hfind
    cases h
    have hpre := List.find?_some hfind
    have hmem := List.mem_of_find?_eq_some hfind
    refine ⟨List.isPrefixOf_iff_prefix.mp hpre, ?_⟩
    rintro rfl
    exact absurd hmem (by decide)
  · split at h
    · split at h
      · cases h
        simp
      · cases h
    · cases h

theorem number_ne_nil {c : Char} {s : List Char} {t : Token} (hc : c.isDigit = true)
    (h : number (c :: s) = some t) : t.text ≠ [] := by
  rw [number] at h
  split at h
  · cases h
  · rename_i t' ht'
    split at h
    · cases h
    · cases h
      split at ht'
      · rw [hexadecimal] at ht'
        split at ht'
        · cases ht'
        · cases ht'
          simp
      · obtain ⟨power, -, rfl⟩ := Option.map_eq_some_iff.mp ht'
        simp [hc]

/-- A lexeme is a nonempty text at the front of the source. -/
theorem lexeme_spec {s : List Char} {l : Lexeme} (h : lexeme s = some l) :
    l.text <+: s ∧ l.text ≠ [] := by
  revert h
  fun_cases lexeme s with
  | case1 => rintro ⟨⟩
  | case2 c s _ => rintro ⟨⟩; simp [Lexeme.text]
  | case3 c s _ hline =>
      rintro ⟨⟩
      refine ⟨List.takeWhile_prefix _, ?_⟩
      rw [hline.1]
      simp [Lexeme.text]
  | case4 c s _ _ hblock =>
      intro h
      obtain ⟨t, ht, rfl⟩ := Option.map_eq_some_iff.mp h
      cases s with
      | nil => cases hblock.2
      | cons a s =>
          obtain ⟨rfl, ha⟩ := hblock
          cases ha
          simpa [Lexeme.text] using blockComment_isPrefix ht
  | case5 c s _ _ _ hid =>
      rintro ⟨⟩
      refine ⟨List.takeWhile_prefix _, ?_⟩
      have hc : isIdChar c = true := by
        simp only [isIdStart, Bool.or_eq_true, beq_iff_eq] at hid
        rcases hid with hid | rfl
        · simp [isIdChar, Char.isAlphanum, hid]
        · rfl
      simp [Lexeme.text, hc]
  | case6 c s _ _ _ _ hdigit =>
      intro h
      obtain ⟨t, ht, rfl⟩ := Option.map_eq_some_iff.mp h
      exact ⟨number_isPrefix ht, number_ne_nil hdigit ht⟩
  | case7 c s _ _ _ _ _ _ =>
      intro h
      obtain ⟨t, ht, rfl⟩ := Option.map_eq_some_iff.mp h
      rw [literal] at ht
      split at ht
      · cases ht
      · rename_i hbody
        have hpre := literalBody_isPrefix hbody
        split at ht
        · split at ht <;> cases ht
          simpa [Lexeme.text] using hpre
        · cases ht
          simpa [Lexeme.text] using hpre
  | case8 c s _ _ _ _ _ _ =>
      intro h
      obtain ⟨op, hop, rfl⟩ := Option.map_eq_some_iff.mp h
      exact operator_isPrefix hop

def lexer : Tokenizer Char Lexeme where
  step := lexeme
  text := Lexeme.text
  text_isPrefix h := (lexeme_spec h).1
  text_ne_nil h := (lexeme_spec h).2

/-- `tokens` with their positions, up to the end of the file. -/
def tokensAt : Loc → List Lexeme → List (Token × Loc)
  | l, [] => [(⟨.eof, []⟩, l)]
  | l, .token t :: rest => (t, l) :: tokensAt (l.advance t.text) rest
  | l, x :: rest => tokensAt (l.advance x.text) rest

/-- A C string ends at the first zero byte. -/
def cString (file : List Char) : List Char := file.takeWhile (· != Char.ofNat 0)

def byteOrderMark : List Char := [Char.ofNat 0xef, Char.ofNat 0xbb, Char.ofNat 0xbf]

def skipByteOrderMark (s : List Char) : List Char :=
  if byteOrderMark.isPrefixOf s then s.drop 3 else s

/-- The table doubles from 256 tokens and may not exceed 2000000. -/
def tokenLimit : ℕ := 1048576

def lex (file : List Char) : Option (List (Token × Loc)) :=
  match lexer.scan (skipByteOrderMark (cString file)) with
  | none => none
  | some lexemes =>
      let tokens := tokensAt ⟨1, 1⟩ lexemes
      if tokens.length ≤ tokenLimit then some tokens else none

example : (lex "a<<=1.e5 // x".toList).map (·.map fun t ↦ (t.1.kind, String.ofList t.1.text)) =
    some [(.id, "a"), (.op, "<<="), (.float, "1.e5"), (.eof, "")] := by decide

end TinyCPlus.Compiler
