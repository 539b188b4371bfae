import TinyCPlus.Compiler.Lexer

/-!
# The formatter (`tc_format_file` of `tooling.c`)

The formatter lexes the file, walks over the source again to find the
comments between the tokens, and writes the tokens with its own spacing.
-/

namespace TinyCPlus.Compiler

structure Formatter where
  output : List Char
  indent : ℤ
  paren : ℕ
  brace : ℕ
  braceParen : ℕ → ℕ
  inCase : ℕ → Bool
  label : Bool
  glue : Bool
  previousOp : Bool
  previous : List Char

namespace Formatter

/-- The state after `calloc`, with `previous` set to the empty text. -/
def start : Formatter where
  output := []
  indent := 0
  paren := 0
  brace := 0
  braceParen _ := 0
  inCase _ := false
  label := false
  glue := false
  previousOp := false
  previous := []

def isBlank (c : Char) : Bool := c == ' ' || c == '\t'

/-- A text without the blanks at its end. -/
def trimEnd (s : List Char) : List Char := s.rdropWhile isBlank

/-- Nothing is written on the current line. -/
def lineStart (f : Formatter) : Bool := f.output == [] || f.output.getLast? == some '\n'

/-- `fmt_newline` -/
def newline (f : Formatter) : Formatter :=
  let f := { f with output := trimEnd f.output, previous := [] }
  if f.lineStart then f else { f with output := f.output ++ ['\n'] }

/-- `fmt_indent` -/
def indentLine (f : Formatter) : Formatter :=
  if f.lineStart then
    { f with output := f.output ++ List.replicate (4 * f.indent.toNat) ' ' }
  else f

def write (f : Formatter) (text : List Char) : Formatter :=
  { f with output := f.output ++ text }

/-- One comment of `fmt_comments`, on lines of its own. -/
def comment (f : Formatter) (text : List Char) : Formatter :=
  (f.newline.indentLine.write text).newline

/-- A block comment from inside `depth` opening marks, up to `n` characters. -/
def blockText : ℕ → ℕ → List Char → List Char
  | 0, _, _ => []
  | _, 0, _ => []
  | _, _, [] => []
  | depth + 1, n + 1, '/' :: '*' :: s => '/' :: '*' :: blockText (depth + 2) (n - 1) s
  | depth + 1, n + 1, '*' :: '/' :: s => '*' :: '/' :: blockText depth (n - 1) s
  | depth + 1, n + 1, c :: s => c :: blockText (depth + 1) n s

/-- The text of the comment at the front of the source, if there is one. -/
def commentText (n : ℕ) : List Char → Option (List Char)
  | '/' :: '/' :: s => some (('/' :: '/' :: s).take n |>.takeWhile (· != '\n'))
  | '/' :: '*' :: s => some ('/' :: '*' :: blockText 1 (n - 2) s)
  | _ => none

/-- `fmt_comments` on the first `n` characters of the source, with fuel. -/
def commentsFuel : ℕ → Formatter → ℕ → List Char → Formatter
  | 0, f, _, _ => f
  | _, f, 0, _ => f
  | _, f, _, [] => f
  | fuel + 1, f, n + 1, c :: s =>
      match commentText (n + 1) (c :: s) with
      | some text =>
          commentsFuel fuel (f.comment text) (n + 1 - text.length) ((c :: s).drop text.length)
      | none => commentsFuel fuel f n s

/-- Every turn of the loop passes at least one character. -/
def comments (f : Formatter) (n : ℕ) (s : List Char) : Formatter := commentsFuel n f n s

/-- Leaves the body of a case, if the innermost braces are in one. -/
def leaveCase (f : Formatter) : Formatter :=
  if f.inCase f.brace then
    { f with inCase := Function.update f.inCase f.brace false, indent := f.indent - 1 }
  else f

def closesBrace (t : Token) : Bool := t.text == "\x7d".toList && t.kind == .op

/-- A closing brace starts a line. -/
def closeBrace (f : Formatter) (t : Token) : Formatter :=
  if closesBrace t then
    newline (if f.brace ≠ 0 then
      let f := f.leaveCase
      { f with brace := f.brace - 1, indent := f.indent - 1 }
    else f)
  else f

/-- A case or default label at the start of a statement. -/
def caseLabel (f : Formatter) (t : Token) (next : List Char) : Formatter :=
  if t.kind = .id ∧ (t.text = "case".toList ∨ t.text = "default".toList) ∧ f.paren = 0 ∧
      f.brace ≠ 0 ∧ next ≠ "=".toList ∧ next ≠ ";".toList ∧ f.lineStart then
    { f.leaveCase with label := true }
  else f

/-- The texts that are written right behind what precedes them. -/
def tightTexts : List (List Char) :=
  [";", ",", ")", "]", ".", "->", "::", ":", "["].map String.toList

/-- The texts that have what follows them written right behind. -/
def tightPrevious : List (List Char) :=
  [".", "->", "::", "(", "[", "@"].map String.toList

/-- The words with a blank between them and a parenthesis. -/
def parenWords : List (List Char) := ["if", "for", "while", "switch"].map String.toList

def tight (f : Formatter) (text : List Char) : Bool :=
  tightTexts.contains text || tightPrevious.contains f.previous ||
    (text == "(".toList && !parenWords.contains f.previous) || f.glue

def signs : List (List Char) := ["-", "+", "!", "~"].map String.toList

/-- Whether a token is a prefix operator that stays attached to its operand. -/
def glues (f : Formatter) (t : Token) : Bool :=
  t.kind == .op && signs.contains t.text &&
    (f.previous == [] || f.previous == "return".toList || f.previous == "case".toList ||
      (f.previousOp && f.previous != ")".toList && f.previous != "]".toList))

def writeToken (f : Formatter) (t : Token) : Formatter :=
  let f := f.indentLine
  { f with
    output := f.output ++ (if f.previous ≠ [] ∧ f.tight t.text = false then [' '] else []) ++ t.text
    glue := f.glues t
    previousOp := t.kind == .op
    previous := t.text }

def countParens (f : Formatter) (text : List Char) : Formatter :=
  if text = "(".toList then { f with paren := f.paren + 1 }
  else if text = ")".toList ∧ f.paren ≠ 0 then { f with paren := f.paren - 1 }
  else f

/-- The texts that may stand behind a closing brace on its line. -/
def afterBrace : List (List Char) := [";", ",", ")", "]", "else"].map String.toList

/-- The end of the turn for a token: labels, braces and line ends. -/
def endToken (f : Formatter) (text next : List Char) : Formatter :=
  if f.label ∧ f.paren = 0 ∧ text = ":".toList then
    if next = "\x7b".toList then { f with label := false }
    else
      newline
        { f with
          label := false
          inCase := Function.update f.inCase f.brace true
          indent := f.indent + 1 }
  else if text = "\x7b".toList then
    newline
      { f with
        braceParen := Function.update f.braceParen f.brace f.paren
        brace := f.brace + 1
        inCase := Function.update f.inCase (f.brace + 1) false
        indent := f.indent + 1 }
  else if text = ";".toList ∧
      (f.paren = 0 ∨ (f.brace ≠ 0 ∧ f.paren = f.braceParen (f.brace - 1))) then newline f
  else if text = "\x7d".toList ∧ ¬ afterBrace.contains next then newline f
  else f

/-- The turn for a token behind its comments, but for the limit on braces. -/
def step (f : Formatter) (t : Token) (next : List Char) : Formatter :=
  ((((f.closeBrace t).caseLabel t next).writeToken t).countParens t.text).endToken t.text next

/-- The brace counter has 256 places. -/
def tooDeep (f : Formatter) (t : Token) : Bool := t.text == "\x7b".toList && 255 ≤ f.brace

end Formatter

/-- How far the walk over the source gets: to the position of a token. -/
def gapLength (target : Loc) : Loc → List Char → ℕ
  | _, [] => 0
  | l, c :: s =>
      if l.line < target.line || l.col < target.col then
        gapLength target (l.advance [c]) s + 1
      else 0

/-- The loop over the tokens: the formatter and the source behind the last. -/
def formatLoop : Formatter → List Char → Loc → List (Token × Loc) →
    Option (Formatter × List Char)
  | f, source, l, (t, target) :: (t', target') :: rest =>
      let n := gapLength target l source
      let l := l.advance (source.take n)
      let f := f.comments n source
      if f.tooDeep t then none
      else
        formatLoop (f.step t t'.text) (source.drop (n + t.text.length))
          ⟨l.line, l.col + t.text.length⟩ ((t', target') :: rest)
  | f, source, _, _ => some (f, source)

/-- The text that `tc_format_file` writes. -/
def format (file : List Char) : Option (List Char) :=
  match lex file with
  | none => none
  | some tokens =>
      let source := skipByteOrderMark (cString file)
      match formatLoop Formatter.start source ⟨1, 1⟩ tokens with
      | none => none
      | some (f, rest) => some (f.comments rest.length rest).newline.output

example : format "if(a)b(- 1 ) ;c=x [0 ] ;".toList =
    some "if (a) b(-1);\nc = x[0];\n".toList := by decide +kernel

end TinyCPlus.Compiler
