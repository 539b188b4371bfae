import TinyCPlus.Compiler.TypeInterning

/-!
# Instances of generic declarations (`generic.c`)

`expand_generics` copies a generic declaration with the types in place of its formals.  A syntax
tree keeps the links of the source; what the copy does not keep (symbols, resolved nodes, names
in C) and what it does not change (places, owners) is left out.
-/

namespace TinyCPlus.Compiler.Generics

/-! ## Substitution in a type -/

/-- The formals with the types in their place, the last formal first. -/
abbrev Substitution := List (List Char × TypeExpr)

def Substitution.find (map : Substitution) (name : List Char) : Option TypeExpr :=
  (map.find? fun s ↦ s.1 = name).map Prod.snd

/-- What the type table holds beside the types of the declaration.  It decides which entry is
found first: a const type keeps the parts of the type it is made of. -/
structure TypeView where
  /-- An `enum` declaration has taken the entry of the name. -/
  isEnum : List Char → Bool
  /-- The generic type of the name `const n` with these items is the const type. -/
  constGeneric : List Char → List TypeExpr → Bool
  /-- The newest slice over the item is the const type. -/
  constSlice : TypeExpr → Bool

/-- The names whose entry is of the kind `TY_NAMED`. -/
def TypeView.named (view : TypeView) (name : List Char) : Bool :=
  (primitiveNamed name).isNone && !view.isEnum name

/-- `type_derive` for a slice. -/
def TypeView.slice (view : TypeView) (t : TypeExpr) : TypeExpr :=
  if view.constSlice t then .const (.slice t) else .slice t

section SubType

variable (view : TypeView) (map : Substitution)

mutual

/-- `sub_type` -/
def subType : TypeExpr → TypeExpr
  | .named name => if view.named name then (map.find name).getD (.named name) else .named name
  | .generic name items => .generic name (subTypes items)
  | .function closure params result => .function closure params result
  | .tuple items => .tuple (subTypes items)
  | .slice t => view.slice (subType t)
  | .pointer t => .pointer (subType t)
  | .array t count => .array (subType t) count
  | .const t => subConst t

/-- `sub_type` on the entry that `type_const` makes of a type: it has the kind and the parts of
the type and a name of its own. -/
def subConst : TypeExpr → TypeExpr
  | .named name => .const (.named name)
  | .generic name items =>
      let items := subTypes items
      if view.constGeneric name items then .const (.generic name items)
      else .generic ("const ".toList ++ name) items
  | .function closure params result => .const (.function closure params result)
  | .tuple items => .tuple (subTypes items)
  | .slice t => view.slice (subType t)
  | .pointer t => .pointer (subType t)
  | .array t count => .array (subType t) count
  | .const t => subConst t

def subTypes : List TypeExpr → List TypeExpr
  | [] => []
  | t :: ts => subType t :: subTypes ts

end

end SubType

/-! ## Syntax trees -/

inductive NodeKind where
  | program | function | «class» | interface | extension | property | block | var | expr | return
  | if | while | for | range | break | continue | defer | delete | int | float | string | char
  | bool | null | id | binary | unary | call | index | slice | member | init | tuple | new | cast
  | sizeof | lambda | await | spawn | module | import | enum | switch | case
deriving DecidableEq, Repr

structure NodeFields where
  kind : NodeKind
  id : ℕ
  flags : ℕ
  name : Option (List Char)
  text : Option (List Char)
  label : Option (List Char)
  type : Option TypeExpr
  declType : Option TypeExpr

/-- A node with its links `a`, `b`, `c`, `body`, `params`, `args` and `next`. -/
inductive Node where
  | null
  | node (fields : NodeFields) (a b c body params args next : Node)

section Clone

variable (view : TypeView) (map : Substitution) (fresh : ℕ → ℕ)

def NodeFields.clone (f : NodeFields) : NodeFields :=
  { f with
    id := fresh f.id
    type := f.type.map (subType view map)
    declType := f.declType.map (subType view map) }

/-- `clone`; `fresh` gives the identities of the new nodes. -/
def Node.clone : Node → Node
  | .null => .null
  | .node f a b c body params args next =>
      .node (f.clone view map fresh) a.clone b.clone c.clone body.clone params.clone args.clone
        next.clone

end Clone

/-! ## Instances -/

/-- The names of the nodes of a list. -/
def Node.names : Node → List (List Char)
  | .null => []
  | .node f _ _ _ _ _ _ next => f.name.getD [] :: next.names

def Node.isNull : Node → Bool
  | .null => true
  | .node .. => false

/-- `template_for` -/
def templateFor (name : List Char) : Node → Option Node
  | .null => none
  | .node f a b c body params args next =>
      if f.name = some name ∧
          ((f.kind = .class ∧ !params.isNull) ∨ (f.kind = .function ∧ !args.isNull)) then
        some (.node f a b c body params args next)
      else templateFor name next

/-- The loop that pairs formals and actuals; it fails where one list is longer. -/
def pairs : List (List Char) → List TypeExpr → Substitution → Option Substitution
  | formal :: formals, actual :: actuals, map => pairs formals actuals ((formal, actual) :: map)
  | [], [], map => some map
  | _, _, _ => none

/-- The name of an instance. -/
def instanceName (name : List Char) (id : ℕ) : List Char :=
  name ++ "_inst_".toList ++ Nat.toDigits 10 id

/-- The instance of a generic declaration for the generic type `name<actuals>` with this id; an
error is the text of the diagnostic. -/
def instantiate (view : TypeView) (fresh : ℕ → ℕ) (name : List Char) (actuals : List TypeExpr)
    (id : ℕ) : Node → Except (List Char) Node
  | .null => .ok .null
  | .node f a b c body params args _ =>
      match pairs (if f.kind = .class then params.names else args.names) actuals [] with
      | none => .error ("wrong number of type arguments for '".toList ++ f.name.getD [] ++ ['\''])
      | some map =>
          match Node.clone view map fresh (.node f a b c body params args .null) with
          | .null => .ok .null
          | .node f' a b c body params args next =>
              let f' := { f' with name := some (instanceName (f.name.getD []) id) }
              if f.kind = .class then
                .ok (.node { f' with type := some (.generic name actuals) } a b c body .null args
                  next)
              else .ok (.node f' a b c body params .null next)

end TinyCPlus.Compiler.Generics
