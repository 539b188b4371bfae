import TinyCPlus.Compiler.Lexer

/-!
# The expression parser (`parser.c`)

Types and expressions.  The statements of a block-bodied lambda are read by a
parameter `stmt`, and `knownType` says which names are types already.  A
syntax error is `none`.  Recursion and loops carry fuel, which has nothing to
do with the nesting limit that `enter` checks.
-/

namespace TinyCPlus.Compiler

/-- The types that `parse_type` builds. -/
inductive TypeExpr where
  | named (name : List Char)
  | generic (name : List Char) (items : List TypeExpr)
  | function (closure : Bool) (params : List TypeExpr) (result : TypeExpr)
  | tuple (items : List TypeExpr)
  | slice (item : TypeExpr)
  | const (base : TypeExpr)
  | pointer (base : TypeExpr)
  | array (base : TypeExpr) (count : ℕ)

/-- The expressions, over the statements `S` of lambda bodies. -/
inductive Node (S : Type) where
  | id (name : List Char) (declType : Option TypeExpr)
  | int (text : List Char)
  | float (text : List Char)
  | string (text : List Char)
  | char (text : List Char)
  | bool (text : List Char)
  | null
  | unary (text : List Char) (a : Node S) (post : Bool)
  | binary (text : List Char) (a b : Node S)
  | call (a : Node S) (args : List (Option (List Char) × Node S))
  | member (a : Node S) (name : List Char)
  | index (a b : Node S)
  | slice (a : Node S) (b c : Option (Node S))
  | tuple (args : List (Node S))
  | init (args : List (Option (List Char) × Node S))
  | new (declType : TypeExpr) (args : List (Option (List Char) × Node S))
  | sizeof (declType : TypeExpr)
  | cast (declType : TypeExpr) (a : Node S)
  | await (a : Node S)
  | spawn (a : Node S)
  | lambda (params : List (Option TypeExpr × List Char)) (body : S ⊕ Node S)

/-! ## Tokens -/

def peek : List Token → Token
  | [] => ⟨.eof, []⟩
  | t :: _ => t

def isAt (s : String) (ts : List Token) : Bool := (peek ts).text == s.toList

def eat (s : String) (ts : List Token) : Option (List Token) :=
  if isAt s ts then some ts.tail else none

def take (ts : List Token) : Option (Token × List Token) :=
  if (peek ts).kind = .eof then none else some (peek ts, ts.tail)

def expect (s : String) (ts : List Token) : Option (List Token) := eat s ts

def ident (ts : List Token) : Option (List Char × List Token) :=
  match take ts with
  | none => none
  | some (t, rest) => if t.kind = .id then some (t.text, rest) else none

def nestingLimit : ℕ := 256

/-- `enter` at the depth reached so far: the depth inside. -/
def enter (depth : ℕ) : Option ℕ := if depth + 1 ≤ nestingLimit then some (depth + 1) else none

/-! ## Types -/

def digitValue (c : Char) : ℕ :=
  if c.isDigit then c.toNat - 48
  else if 'a' ≤ c then c.toNat - 87
  else c.toNat - 55

/-- `strtoull` in base 0 on a literal; `none` is an overflow. -/
def strtoull (text : List Char) : Option ℕ :=
  let value (base : ℕ) (digits : List Char) : Option ℕ :=
    let n := digits.foldl (fun n c ↦ n * base + digitValue c) 0
    if n < 2 ^ 64 then some n else none
  match text with
  | '0' :: x :: s =>
      if x == 'x' || x == 'X' then value 16 (s.takeWhile isHexDigit)
      else value 8 ((x :: s).takeWhile fun c ↦ '0' ≤ c && c ≤ '7')
  | s => value 10 (s.takeWhile Char.isDigit)

def arrayLength (ts : List Token) : Option (ℕ × List Token) := do
  let (n, ts) ← take ts
  if n.kind = .int then
    let len ← strtoull n.text
    if len = 0 ∨ 10000000 < len then none else some (len, ts)
  else none

/-- `while (eat(c, ".")) name = name.ident` -/
def dotted : ℕ → List Char → List Token → Option (List Char × List Token)
  | 0, _, _ => none
  | fuel + 1, name, ts =>
      match eat "." ts with
      | none => some (name, ts)
      | some ts => do
          let (part, ts) ← ident ts
          dotted fuel (name ++ '.' :: part) ts

/-- The end of a list of types: a `>>` is split for the list outside. -/
def closeItems (close : String) (ts : List Token) : Option (List Token) :=
  if close = ">" ∧ isAt ">>" ts then some (⟨(peek ts).kind, ">".toList⟩ :: ts.tail)
  else expect close ts

mutual

def parseType : ℕ → ℕ → List Token → Option (TypeExpr × List Token)
  | 0, _, _ => none
  | fuel + 1, depth, ts => do
      let cn := isAt "const" ts
      let ts := if cn then ts.tail else ts
      let depth ← enter depth
      let (t, ts) ←
        (match eat "(" ts with
        | some ts => (typeItems fuel depth ")" ts).map fun r ↦ (TypeExpr.tuple r.1, r.2)
        | none => do
            let (name, ts) ← ident ts
            let (name, ts) ← dotted fuel name ts
            match eat "<" ts with
            | none => some (TypeExpr.named name, ts)
            | some ts =>
                if name = "func".toList ∨ name = "closure".toList then do
                  let (result, ts) ← parseType fuel depth ts
                  let ts ← expect "(" ts
                  let (params, ts) ←
                    (match eat ")" ts with
                    | some ts => some ([], ts)
                    | none => typeItems fuel depth ")" ts)
                  let ts ← expect ">" ts
                  some (TypeExpr.function (name = "closure".toList) params result, ts)
                else do
                  let (items, ts) ← typeItems fuel depth ">" ts
                  if name = "Slice".toList then
                    match items with
                    | [item] => some (TypeExpr.slice item, ts)
                    | _ => none
                  else some (TypeExpr.generic name items, ts))
      typeSuffix fuel (if cn then TypeExpr.const t else t) ts

def typeItems : ℕ → ℕ → String → List Token → Option (List TypeExpr × List Token)
  | 0, _, _, _ => none
  | fuel + 1, depth, close, ts => do
      let (t, ts) ← parseType fuel depth ts
      match eat "," ts with
      | some ts => (typeItems fuel depth close ts).map fun r ↦ (t :: r.1, r.2)
      | none => (closeItems close ts).map fun ts ↦ ([t], ts)

/-- The `*` and `[n]` behind a type. -/
def typeSuffix : ℕ → TypeExpr → List Token → Option (TypeExpr × List Token)
  | 0, _, _ => none
  | fuel + 1, t, ts =>
      if isAt "*" ts then typeSuffix fuel (.pointer t) ts.tail
      else if isAt "[" ts then do
        let (len, ts) ← arrayLength ts.tail
        let ts ← expect "]" ts
        typeSuffix fuel (.array t len) ts
      else some (t, ts)

end

/-- The words that start a type whatever stands behind them. -/
def typeWords : List (List Char) :=
  ["const", "var", "Slice", "Array", "Channel", "Task", "Future", "func", "closure", "void", "bool",
    "i8", "u8", "i16", "u16", "i32", "u32", "i64", "u64", "float", "double", "char", "string",
    "int", "uint", "byte", "short", "long", "ulong", "size_t", "Error", "StringView"].map
      String.toList

/-- `p += 2` over `.name` pairs. -/
def skipDots : List Token → List Token
  | dot :: name :: ts =>
      if dot.text == ".".toList && name.kind == .id then skipDots ts else dot :: name :: ts
  | ts => ts

def isNameOrStar (ts : List Token) : Bool := (peek ts).kind == .id || isAt "*" ts

def typeStart (knownType : List Char → Bool) (ts : List Token) : Bool :=
  let s := (peek ts).text
  if isAt "." ts.tail then isNameOrStar (skipDots ts.tail)
  else if isAt "(" ts.tail then false
  else typeWords.contains s || knownType s ||
    (s.head?.any Char.isUpper && (isNameOrStar ts.tail || isAt "[" ts.tail))

/-! ## Lookahead -/

/-- Skips a parenthesised list, from inside `depth` parentheses. -/
def skipParens : ℕ → List Token → Option (List Token)
  | _, [] => none
  | depth, t :: ts =>
      let depth := if t.text == "(".toList then depth + 1
        else if t.text == ")".toList then depth - 1 else depth
      if depth = 0 then some ts else skipParens depth ts

def lambdaAhead (ts : List Token) : Bool :=
  isAt "(" ts && (skipParens 0 ts).any (isAt "=>")

/-- The loop of `generic_call_ahead`, with the number of tokens left to it. -/
def genericAhead : ℕ → ℤ → List Token → Bool
  | 0, _, _ => false
  | _, _, [] => false
  | n + 1, depth, t :: ts =>
      if t.text == ";".toList || t.text == "\x7b".toList || t.text == "=".toList then false
      else
        let depth := if t.text == "<".toList then depth + 1
          else if t.text == ">".toList then depth - 1
          else if t.text == ">>".toList then depth - 2 else depth
        if depth ≤ 0 then isAt "(" ts || isAt "." ts else genericAhead n depth ts

def genericCallAhead (ts : List Token) : Bool := isAt "<" ts && genericAhead 128 0 ts

/-! ## Expressions -/

/-- The comparisons of `precedence`, one row for each result. -/
def precedenceRows : List (ℕ × List (List Char)) :=
  [(1, ["=", "+=", "-=", "*=", "/=", "%=", "&=", "|=", "^="]), (2, ["||"]), (3, ["&&"]),
    (4, ["|"]), (5, ["^"]), (6, ["&"]), (7, ["==", "!="]), (8, ["<", ">", "<=", ">="]),
    (9, ["<<", ">>"]), (10, ["+", "-"]), (11, ["*", "/", "%"])].map
      fun row : ℕ × List String ↦ (row.1, row.2.map String.toList)

def precedence (s : List Char) : ℕ :=
  match precedenceRows.find? fun row ↦ row.2.contains s with
  | some row => row.1
  | none => 0

/-- The least precedence the right operand of an operator takes. -/
def rightLevel (p : ℕ) : ℕ := p + if p = 1 then 0 else 1

def prefixTexts : List (List Char) :=
  ["!", "-", "+", "~", "*", "&", "++", "--"].map String.toList

def isPrefixOp (s : List Char) : Bool := prefixTexts.contains s

section Grammar

variable {S : Type} (knownType : List Char → Bool)
  (stmt : ℕ → List Token → Option (S × List Token))

/-- The last branch of `primary`, but for the two readings of an identifier. -/
def literalNode (t : Token) : Option (Node S) :=
  if t.kind = .int then some (.int t.text)
  else if t.kind = .float then some (.float t.text)
  else if t.kind = .string then some (.string t.text)
  else if t.kind = .char then some (.char t.text)
  else if t.text = "true".toList ∨ t.text = "false".toList then some (.bool t.text)
  else if t.text = "null".toList then some .null
  else none

def lambdaParams : ℕ → ℕ → List Token →
    Option (List (Option TypeExpr × List Char) × List Token)
  | 0, _, _ => none
  | fuel + 1, depth, ts => do
      let (declType, ts) ←
        (if typeStart knownType ts then
          (parseType fuel depth ts).map fun r ↦ (some r.1, r.2)
        else some (none, ts))
      let (name, ts) ← ident ts
      match eat "," ts with
      | some ts =>
          (lambdaParams fuel depth ts).map fun r ↦ ((declType, name) :: r.1, r.2)
      | none => some ([(declType, name)], ts)

mutual

def expr : ℕ → ℕ → ℕ → List Token → Option (Node S × List Token)
  | 0, _, _, _ => none
  | fuel + 1, depth, min, ts => do
      let depth ← enter depth
      let (left, ts) ← primary fuel depth ts
      binaries fuel depth min left ts

/-- The loop of `expr`. -/
def binaries : ℕ → ℕ → ℕ → Node S → List Token → Option (Node S × List Token)
  | 0, _, _, _, _ => none
  | fuel + 1, depth, min, left, ts =>
      let p := precedence (peek ts).text
      if p < min then some (left, ts)
      else do
        let (op, ts) ← take ts
        let (right, ts) ← expr fuel depth (rightLevel p) ts
        binaries fuel depth min (.binary op.text left right) ts

def primary : ℕ → ℕ → List Token → Option (Node S × List Token)
  | 0, _, _ => none
  | fuel + 1, depth, ts => do
      let depth ← enter depth
      let (n, ts) ← operand fuel depth ts
      postfixes fuel depth n ts

/-- `primary` up to its loop. -/
def operand : ℕ → ℕ → List Token → Option (Node S × List Token)
  | 0, _, _ => none
  | fuel + 1, depth, ts =>
      if lambdaAhead ts then do
        let ts ← expect "(" ts
        let (params, ts) ←
          (match eat ")" ts with
          | some ts => some ([], ts)
          | none => do
              let (params, ts) ← lambdaParams knownType fuel depth ts
              let ts ← expect ")" ts
              some (params, ts))
        let ts ← expect "=>" ts
        lambdaBody fuel depth params ts
      else if isAt "(" ts then do
        let (n, ts) ← expr fuel depth 1 ts.tail
        match eat "," ts with
        | some ts => do
            let (args, ts) ← tupleRest fuel depth ts
            let ts ← expect ")" ts
            some (.tuple (n :: args), ts)
        | none => do
            let ts ← expect ")" ts
            some (n, ts)
      else if isAt "\x7b" ts then
        (arguments fuel depth "\x7d" ts.tail).map fun r ↦ (.init r.1, r.2)
      else if isAt "new" ts then do
        let (declType, ts) ← parseType fuel depth ts.tail
        match eat "(" ts with
        | some ts => (arguments fuel depth ")" ts).map fun r ↦ (.new declType r.1, r.2)
        | none => some (.new declType [], ts)
      else if isAt "sizeof" ts then do
        let ts ← expect "(" ts.tail
        let (declType, ts) ← parseType fuel depth ts
        let ts ← expect ")" ts
        some (.sizeof declType, ts)
      else if isAt "cast" ts then do
        let ts ← expect "<" ts.tail
        let (declType, ts) ← parseType fuel depth ts
        let ts ← expect ">" ts
        let ts ← expect "(" ts
        let (a, ts) ← expr fuel depth 1 ts
        let ts ← expect ")" ts
        some (.cast declType a, ts)
      else if isPrefixOp (peek ts).text then do
        let (op, ts) ← take ts
        let (a, ts) ← expr fuel depth 14 ts
        some (.unary op.text a false, ts)
      else if isAt "await" ts then
        (expr fuel depth 14 ts.tail).map fun r ↦ (.await r.1, r.2)
      else if isAt "spawn" ts then
        (expr fuel depth 14 ts.tail).map fun r ↦ (.spawn r.1, r.2)
      else do
        let (t, ts) ← take ts
        match literalNode t with
        | some n => some (n, ts)
        | none =>
            if t.kind = .id then
              match eat "=>" ts with
              | some ts => lambdaBody fuel depth [(none, t.text)] ts
              | none =>
                  if genericCallAhead ts then do
                    let ts ← expect "<" ts
                    let (items, ts) ← typeItems fuel depth ">" ts
                    some (.id t.text (some (.generic t.text items)), ts)
                  else some (.id t.text none, ts)
            else none

def lambdaBody : ℕ → ℕ → List (Option TypeExpr × List Char) → List Token →
    Option (Node S × List Token)
  | 0, _, _, _ => none
  | fuel + 1, depth, params, ts =>
      if isAt "\x7b" ts then (stmt depth ts).map fun r ↦ (.lambda params (.inl r.1), r.2)
      else (expr fuel depth 1 ts).map fun r ↦ (.lambda params (.inr r.1), r.2)

/-- The items of a tuple behind the first. -/
def tupleRest : ℕ → ℕ → List Token → Option (List (Node S) × List Token)
  | 0, _, _ => none
  | fuel + 1, depth, ts => do
      let (n, ts) ← expr fuel depth 1 ts
      match eat "," ts with
      | some ts => (tupleRest fuel depth ts).map fun r ↦ (n :: r.1, r.2)
      | none => some ([n], ts)

/-- The loop of `primary`. -/
def postfixes : ℕ → ℕ → Node S → List Token → Option (Node S × List Token)
  | 0, _, _, _ => none
  | fuel + 1, depth, n, ts =>
      if isAt "(" ts then do
        let (args, ts) ← arguments fuel depth ")" ts.tail
        postfixes fuel depth (.call n args) ts
      else if isAt "." ts || isAt "->" ts then do
        let (name, ts) ← ident ts.tail
        postfixes fuel depth (.member n name) ts
      else if isAt "[" ts then do
        let (n, ts) ← subscript fuel depth n ts.tail
        postfixes fuel depth n ts
      else if isAt "++" ts || isAt "--" ts then do
        let (op, ts) ← take ts
        postfixes fuel depth (.unary op.text n true) ts
      else some (n, ts)

/-- An index or a slice, from inside its brackets. -/
def subscript : ℕ → ℕ → Node S → List Token → Option (Node S × List Token)
  | 0, _, _, _ => none
  | fuel + 1, depth, n, ts =>
      if isAt ":" ts then sliceEnd fuel depth n none ts.tail
      else do
        let (b, ts) ← expr fuel depth 1 ts
        match eat ":" ts with
        | some ts => sliceEnd fuel depth n (some b) ts
        | none => (expect "]" ts).map fun ts ↦ (.index n b, ts)

def sliceEnd : ℕ → ℕ → Node S → Option (Node S) → List Token → Option (Node S × List Token)
  | 0, _, _, _, _ => none
  | fuel + 1, depth, n, b, ts =>
      match eat "]" ts with
      | some ts => some (.slice n b none, ts)
      | none => do
          let (c, ts) ← expr fuel depth 1 ts
          (expect "]" ts).map fun ts ↦ (.slice n b (some c), ts)

def arguments : ℕ → ℕ → String → List Token →
    Option (List (Option (List Char) × Node S) × List Token)
  | 0, _, _, _ => none
  | fuel + 1, depth, close, ts =>
      match eat close ts with
      | some ts => some ([], ts)
      | none => argumentList fuel depth close ts

def argumentList : ℕ → ℕ → String → List Token →
    Option (List (Option (List Char) × Node S) × List Token)
  | 0, _, _, _ => none
  | fuel + 1, depth, close, ts => do
      let (label, ts) ←
        (if (peek ts).kind = .id ∧ isAt ":" ts.tail then do
          let (label, ts) ← ident ts
          let ts ← expect ":" ts
          some (some label, ts)
        else some (none, ts))
      let (n, ts) ← expr fuel depth 1 ts
      match eat "," ts with
      | some ts => (argumentList fuel depth close ts).map fun r ↦ ((label, n) :: r.1, r.2)
      | none => (expect close ts).map fun ts ↦ ([(label, n)], ts)

end

end Grammar

end TinyCPlus.Compiler
