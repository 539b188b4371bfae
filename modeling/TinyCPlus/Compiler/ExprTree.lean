import TinyCPlus.Compiler.LexerSpec
import TinyCPlus.Compiler.Parser

/-!
# Expression trees and their printed form

Trees over identifiers, integer literals, prefix operators and binary
operators, printed with parentheses only where precedence and associativity
ask for them, and with a blank between any two tokens.
-/

namespace TinyCPlus.Compiler

/-- The words that `primary` does not read as identifiers. -/
def exprWords : List (List Char) :=
  ["new", "sizeof", "cast", "await", "spawn", "true", "false", "null"].map String.toList

structure Ident where
  text : List Char
  lexes : lexeme text = some (.token ⟨.id, text⟩)
  notWord : text ∉ exprWords

structure IntLiteral where
  text : List Char
  lexes : lexeme text = some (.token ⟨.int, text⟩)

inductive PrefixOp where
  | minus | not | complement | dereference | address
deriving DecidableEq, Repr

def PrefixOp.text : PrefixOp → List Char
  | .minus => "-".toList
  | .not => "!".toList
  | .complement => "~".toList
  | .dereference => "*".toList
  | .address => "&".toList

/-- The operators that `precedence` knows. -/
structure BinaryOp where
  text : List Char
  binary : 0 < precedence text

inductive Tree where
  | id (name : Ident)
  | int (value : IntLiteral)
  | unary (op : PrefixOp) (a : Tree)
  | binary (op : BinaryOp) (a b : Tree)

namespace Tree

/-- The node the parser builds for a tree. -/
def node {S : Type} : Tree → Node S
  | id name => .id name.text none
  | int value => .int value.text
  | unary op a => .unary op.text a.node false
  | binary op a b => .binary op.text a.node b.node

/-- How tightly the outermost operator binds. -/
def level : Tree → ℕ
  | binary op _ _ => precedence op.text
  | _ => 14

/-- The least level of an unparenthesised left operand: assignments group to
the right, everything else to the left. -/
def leftLevel (p : ℕ) : ℕ := p + if p = 1 then 1 else 0

def lparen : Token := ⟨.op, "(".toList⟩

def rparen : Token := ⟨.op, ")".toList⟩

def parenthesize (parens : Bool) (ts : List Token) : List Token :=
  if parens then lparen :: ts ++ [rparen] else ts

def tokens : Tree → List Token
  | id name => [⟨.id, name.text⟩]
  | int value => [⟨.int, value.text⟩]
  | unary op a => ⟨.op, op.text⟩ :: parenthesize (a.level < 14) a.tokens
  | binary op a b =>
      parenthesize (a.level < leftLevel (precedence op.text)) a.tokens ++
        ⟨.op, op.text⟩ ::
          parenthesize (b.level < rightLevel (precedence op.text)) b.tokens

/-- How deep `expr` and `primary` nest in each other on the printed tree. -/
def nesting : Tree → ℕ
  | id _ => 2
  | int _ => 2
  | unary _ a => 2 + (a.nesting + if a.level < 14 then 2 else 0)
  | binary op a b =>
      max (a.nesting + if a.level < leftLevel (precedence op.text) then 2 else 0)
        (1 + (b.nesting + if b.level < rightLevel (precedence op.text) then 2 else 0))

/-- Tokens with a blank between any two. -/
def spaced : List Token → List Lexeme
  | [] => []
  | [t] => [.token t]
  | t :: ts => .token t :: .blank ' ' :: spaced ts

def print (e : Tree) : List Char := lexer.render (spaced e.tokens)

end Tree

/-! ## The tokens of a printed tree -/

/-- The texts of the binary operators. -/
def binaryTexts : List (List Char) := precedenceRows.flatMap Prod.snd

theorem mem_binaryTexts {s : List Char} (h : 0 < precedence s) : s ∈ binaryTexts := by
  unfold precedence at h
  split at h
  · rename_i row hfind
    have hmem := List.mem_of_find?_eq_some hfind
    have hrow := List.find?_some hfind
    exact List.mem_flatMap.mpr ⟨row, hmem, by simpa using hrow⟩
  · exact absurd h (lt_irrefl 0)

theorem precedence_le (s : List Char) : precedence s ≤ 11 := by
  have hrows : ∀ row ∈ precedenceRows, row.1 ≤ 11 := by decide
  unfold precedence
  split
  · rename_i row hfind
    exact hrows row (List.mem_of_find?_eq_some hfind)
  · exact Nat.zero_le _

theorem binaryTexts_opTexts : ∀ s ∈ binaryTexts, s ∈ opTexts := by decide +kernel

end TinyCPlus.Compiler
