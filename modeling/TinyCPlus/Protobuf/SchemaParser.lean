import Mathlib.Data.List.Nodup
import TinyCPlus.Library.StateExcept

/-!
# Reading proto files (`Schema`, `Parser` of `tiny-protoc.py`)

A token is the text of it, and an error is its message without the place and the text found there.
Loops and the nesting of calls have so many turns at most; the files and the conversions of Python
are parameters.
-/

namespace TinyCPlus.Protobuf.Proto

abbrev Name := List Char

theorem name_lawfulBEq : LawfulBEq Name := inferInstance

attribute [local instance] name_lawfulBEq

/-! ## Schemas -/

structure Field where
  type : Name
  name : Name
  number : ℤ
  repeated : Bool
  optional : Bool
  packed : Bool
  resolved : Name
deriving DecidableEq

/-- `Message` and `Enum`. -/
inductive Definition where
  | message (full name : Name) (fields : List Field)
  | enum (full name : Name) (values : List (Name × ℤ))
deriving DecidableEq

namespace Definition

def full : Definition → Name
  | message full _ _ => full
  | enum full _ _ => full

def name : Definition → Name
  | message _ name _ => name
  | enum _ name _ => name

def isMessage : Definition → Bool
  | message .. => true
  | enum .. => false

end Definition

structure Method where
  name : Name
  request : Name
  response : Name
deriving DecidableEq

structure Service where
  full : Name
  name : Name
  methods : List Method
deriving DecidableEq

structure Schema (Path : Type) where
  files : List Path
  types : List Definition
  services : List Service
deriving DecidableEq

def scalars : List Name :=
  ["double", "float", "int32", "int64", "uint32", "uint64", "sint32", "sint64", "fixed32",
    "fixed64", "sfixed32", "sfixed64", "bool", "string", "bytes"].map String.toList

def reserved : List Name :=
  ["encode", "decode", "decodeView", "mergeView", "destroy", "wireStorage", "this", "new",
    "delete", "var", "return"].map String.toList

/-- The file system, and the readings of a token that Python makes. -/
structure Host (Path : Type) where
  /-- The tokens of a file. -/
  tokens : Path → Except String (List Name)
  /-- The file that an import of the first file names. -/
  found : Path → Name → Option Path
  /-- `int` -/
  int : Name → Option ℤ
  /-- `json.loads`, where it gives a string. -/
  json : Name → Option Name

/-- What a parser has still to read, and what it has read. -/
structure Input (Path : Type) where
  tokens : List Name
  package : Name
  schema : Schema Path
deriving DecidableEq

abbrev Parser (Path : Type) := StateT (Input Path) (Except String)

variable {Path : Type}

/-! ## Tokens -/

def fail {α : Type} (message : String) : Parser Path α := throw message

def pop : Parser Path Name := do
  let input ← get
  match input.tokens with
  | [] => fail "unexpected end of file"
  | token :: rest => do
      set { input with tokens := rest }
      return token

def eat (value : String) : Parser Path Bool := do
  let input ← get
  match input.tokens with
  | [] => return false
  | token :: rest =>
      if token = value.toList then do
        set { input with tokens := rest }
        return true
      else return false

def need (value : String) : Parser Path Unit := do
  if ← eat value then return () else fail ("expected " ++ value)

def isLetter (c : Char) : Bool := c.isAlpha || c == '_'

def isIdentifier : Name → Bool
  | [] => false
  | c :: rest => isLetter c && rest.all fun c ↦ isLetter c || c.isDigit

def ident : Parser Path Name := do
  let value ← pop
  if ¬isIdentifier value ∨ "tc_".toList <+: value ∨ "__".toList <+: value then
    fail ("invalid or reserved identifier " ++ String.ofList value)
  else return value

/-- `while self.eat('.')` -/
def qualifiedRest : ℕ → Name → Parser Path Name
  | 0, _ => fail "no turn left"
  | fuel + 1, value => do
      if ← eat "." then do
        let name ← ident
        qualifiedRest fuel (value ++ '.' :: name)
      else return value

def qualified (fuel : ℕ) : Parser Path Name := do
  let dot ← eat "."
  let name ← ident
  qualifiedRest fuel (if dot then '.' :: name else name)

def ignoredOption : ℕ → Parser Path Unit
  | 0 => fail "no turn left"
  | fuel + 1 => do
      let token ← pop
      if token = ";".toList then return () else ignoredOption fuel

def int (host : Host Path) : Parser Path ℤ := do
  let token ← pop
  match host.int token with
  | some number => return number
  | none => fail "invalid literal for int()"

/-! ## Declarations -/

/-- `'.'.join(filter(None, (scope, name)))` -/
def dotted (scope name : Name) : Name := if scope = [] then name else scope ++ '.' :: name

/-- `Schema.add` -/
def add (value : Definition) : Parser Path Unit := do
  let input ← get
  let types := input.schema.types
  if (∃ t ∈ types, t.full = value.full) ∨ ∃ t ∈ types, t.name = value.name then
    fail ("duplicate or ambiguous generated type name: " ++ String.ofList value.full)
  else set { input with schema := { input.schema with types := types ++ [value] } }

def Definition.setFields (full : Name) (fields : List Field) : Definition → Definition
  | message f name old => message f name (if f = full then fields else old)
  | enum f name values => enum f name values

def Definition.setValues (full : Name) (values : List (Name × ℤ)) : Definition → Definition
  | message f name fields => message f name fields
  | enum f name old => enum f name (if f = full then values else old)

def update (change : Definition → Definition) : Parser Path Unit := do
  let input ← get
  set { input with schema := { input.schema with types := input.schema.types.map change } }

def entryName (fieldName : Name) : Name :=
  (fieldName.take 1).map Char.toUpper ++ fieldName.drop 1 ++ "Entry".toList

/-- The type and the name of a field that is a map, with its entries added. -/
def mapField (fuel : ℕ) (full name : Name) : Parser Path (Name × Name) := do
  need "<"
  let key ← qualified fuel
  need ","
  let value ← qualified fuel
  need ">"
  if key ∉ scalars ∨ key ∈ ["float".toList, "double".toList, "bytes".toList] then
    fail "invalid map key type"
  else do
    let fieldName ← ident
    let entry := entryName fieldName
    add (.message (full ++ '.' :: entry) (name ++ '_' :: entry)
      [⟨key, "key".toList, 1, false, false, true, []⟩,
        ⟨value, "value".toList, 2, false, false, true, []⟩])
    return (entry, fieldName)

/-- The options of a field: whether it is packed. -/
def fieldOptions : ℕ → Bool → Parser Path Bool
  | 0, _ => fail "no turn left"
  | fuel + 1, packed => do
      let option ← ident
      need "="
      let val ← pop
      if option = "packed".toList ∧ (val = "true".toList ∨ val = "false".toList) then do
        let packed := decide (val = "true".toList)
        if ← eat "," then fieldOptions fuel packed
        else do
          need "]"
          return packed
      else if option ≠ "deprecated".toList then
        fail ("unsupported field option: " ++ String.ofList option)
      else if ← eat "," then fieldOptions fuel packed
      else do
        need "]"
        return packed

/-- `False if repeated else self.eat('optional')` -/
def eatOptional (repeated : Bool) : Parser Path Bool :=
  if repeated then pure false else eat "optional"

/-- The type and the name of a field. -/
def fieldNames (fuel : ℕ) (full name : Name) (isMap : Bool) : Parser Path (Name × Name) :=
  if isMap then mapField fuel full name
  else do
    let typeName ← qualified fuel
    let fieldName ← ident
    return (typeName, fieldName)

def fieldPacked (fuel : ℕ) : Parser Path Bool := do
  if ← eat "[" then fieldOptions fuel true else return true

/-- The fields of a message after one more. -/
def fieldDeclaration (host : Host Path) (fuel : ℕ) (full name : Name) (fields : List Field) :
    Parser Path (List Field) := do
  let repeated ← eat "repeated"
  let optional ← eatOptional repeated
  let isMap ← eat "map"
  if isMap ∧ (repeated ∨ optional) then fail "map cannot have a label"
  else do
    let (typeName, fieldName) ← fieldNames fuel full name isMap
    need "="
    let number ← int host
    if ¬(1 ≤ number ∧ number ≤ 536870911) ∨ (19000 ≤ number ∧ number ≤ 19999) then
      fail "field number outside legal range"
    else if fieldName ∈ reserved ∨ "has_".toList <+: fieldName ∨
        ∃ f ∈ fields, f.name = fieldName ∨ f.number = number then
      fail ("duplicate or reserved field: " ++ String.ofList fieldName)
    else do
      let packed ← fieldPacked fuel
      need ";"
      return fields ++ [⟨typeName, fieldName, number, repeated || isMap, optional, packed, []⟩]

/-- `self.eat('option') or self.eat('reserved')` -/
def eatIgnored : Parser Path Bool := do
  if ← eat "option" then return true else eat "reserved"

/-- The values of an enum. -/
def enumValues (host : Host Path) :
    ℕ → List (Name × ℤ) → Parser Path (List (Name × ℤ))
  | 0, _ => fail "no turn left"
  | fuel + 1, values => do
      if ← eat "\x7d" then return values
      else if ← eatIgnored then do
        ignoredOption fuel
        enumValues host fuel values
      else do
        let key ← ident
        need "="
        let number ← int host
        need ";"
        if ¬(-2147483648 ≤ number ∧ number ≤ 2147483647) ∨ ∃ v ∈ values, v.1 = key then
          fail "invalid enum value"
        else enumValues host fuel (values ++ [(key, number)])

def enum (host : Host Path) (fuel : ℕ) (scope outer : Name) : Parser Path Unit := do
  let name ← ident
  let full := dotted scope name
  add (.enum full (outer ++ name) [])
  need "\x7b"
  let values ← enumValues host fuel []
  if (values.head?.map Prod.snd) = some 0 then update (Definition.setValues full values)
  else fail "proto3 enum must start with zero"

mutual

def message (host : Host Path) : ℕ → Name → Name → Parser Path Unit
  | 0, _, _ => fail "no turn left"
  | fuel + 1, scope, outer => do
      let name ← ident
      let full := dotted scope name
      add (.message full (outer ++ name) [])
      need "\x7b"
      if 64 < (full.splitOn '.').length then fail "message nesting exceeds 64"
      else members host fuel full (outer ++ name) []

/-- The loop over the members of a message. -/
def members (host : Host Path) : ℕ → Name → Name → List Field → Parser Path Unit
  | 0, _, _, _ => fail "no turn left"
  | fuel + 1, full, name, fields => do
      if ← eat "\x7d" then update (Definition.setFields full fields)
      else if ← eat "message" then do
        message host fuel full (name ++ ['_'])
        members host fuel full name fields
      else if ← eat "enum" then do
        enum host fuel full (name ++ ['_'])
        members host fuel full name fields
      else if ← eatIgnored then do
        ignoredOption fuel
        members host fuel full name fields
      else if ← eat ";" then members host fuel full name fields
      else do
        let fields ← fieldDeclaration host fuel full name fields
        members host fuel full name fields

end

/-- The options of an rpc. -/
def rpcOptions : ℕ → Parser Path Unit
  | 0 => fail "no turn left"
  | fuel + 1 => do
      if ← eat "\x7d" then return ()
      else do
        need "option"
        ignoredOption fuel
        rpcOptions fuel

def rpcEnd (fuel : ℕ) : Parser Path Unit := do
  if ← eat "\x7b" then rpcOptions fuel else need ";"

def rpcs : ℕ → List Method → Parser Path (List Method)
  | 0, _ => fail "no turn left"
  | fuel + 1, methods => do
      if ← eat "\x7d" then return methods
      else do
        need "rpc"
        let method ← ident
        need "("
        let request ← qualified fuel
        need ")"
        need "returns"
        need "("
        let response ← qualified fuel
        need ")"
        rpcEnd fuel
        if ∃ m ∈ methods, m.name = method then fail "duplicate RPC method"
        else rpcs fuel (methods ++ [⟨method, request, response⟩])

def service (fuel : ℕ) : Parser Path Unit := do
  let name ← ident
  let input ← get
  let full := dotted input.package name
  need "\x7b"
  let methods ← rpcs fuel []
  let input ← get
  let services := input.schema.services ++ [Service.mk full name methods]
  set { input with schema := { input.schema with services := services } }

/-! ## Files -/

section Files

variable [DecidableEq Path]

mutual

/-- `Schema.read` -/
def read (host : Host Path) : ℕ → Path → Schema Path → Except String (Schema Path)
  | 0, _, _ => throw "no turn left"
  | fuel + 1, path, schema =>
      if path ∈ schema.files then return schema
      else do
        let tokens ← host.tokens path
        let opened := { schema with files := path :: schema.files }
        let (_, input) ← (parse host fuel path false).run ⟨tokens, [], opened⟩
        return input.schema

/-- `Parser.parse`, where the syntax was given or not. -/
def parse (host : Host Path) : ℕ → Path → Bool → Parser Path Unit
  | 0, _, _ => fail "no turn left"
  | fuel + 1, path, syntaxGiven => do
      let input ← get
      if input.tokens = [] then
        if syntaxGiven then return () else fail "explicit syntax = \"proto3\" is required"
      else do
        let token ← pop
        if token = "syntax".toList then do
          need "="
          need "\"proto3\""
          need ";"
          parse host fuel path true
        else if token = "package".toList then do
          let package ← qualified fuel
          let input ← get
          set { input with package := package }
          need ";"
          parse host fuel path syntaxGiven
        else if token = "import".toList then do
          let _ ← eat "public"
          let name ← pop
          match host.json name with
          | none => fail "not a string"
          | some name => do
              need ";"
              match host.found path name with
              | none => fail ("import not found: " ++ String.ofList name)
              | some file => do
                  let input ← get
                  match read host fuel file input.schema with
                  | .error e => throw e
                  | .ok schema => do
                      set { input with schema := schema }
                      parse host fuel path syntaxGiven
        else if token = "message".toList then do
          let input ← get
          message host fuel input.package []
          parse host fuel path syntaxGiven
        else if token = "enum".toList then do
          let input ← get
          enum host fuel input.package []
          parse host fuel path syntaxGiven
        else if token = "service".toList then do
          service fuel
          parse host fuel path syntaxGiven
        else if token = "option".toList then do
          ignoredOption fuel
          parse host fuel path syntaxGiven
        else if token ≠ ";".toList then fail "unsupported declaration"
        else parse host fuel path syntaxGiven

end

end Files

/-! ## Names of types -/

namespace Schema

variable (schema : Schema Path)

def lookup (full : Name) : Option Definition := schema.types.find? fun t ↦ t.full = full

/-- The full names that a name can mean in a scope, in their order. -/
def choices (name scope : Name) : List Name :=
  if name.head? = some '.' then [name.drop 1]
  else
    let parts := scope.splitOn '.'
    (List.range (parts.length + 1)).reverse.map fun i ↦
      ['.'].intercalate (parts.take i ++ [name])

def resolve (name scope : Name) : Except String Name :=
  if name ∈ scalars then return name
  else
    match (choices name scope).find? fun full ↦ (schema.lookup full).isSome with
    | some full => return full
    | none => throw ("unknown type " ++ String.ofList name)

def resolveField (scope : Name) (f : Field) : Except String Field := do
  let resolved ← schema.resolve f.type scope
  return { f with resolved := resolved }

def resolveDefinition : Definition → Except String Definition
  | .message full name fields => do
      let fields ← fields.mapM (schema.resolveField full)
      return .message full name fields
  | .enum full name values => return .enum full name values

def isMessage (full : Name) : Bool := (schema.lookup full).any Definition.isMessage

def resolveMethod (scope : Name) (m : Method) : Except String Method := do
  let request ← schema.resolve m.request scope
  let response ← schema.resolve m.response scope
  return { m with request := request, response := response }

def resolveService (s : Service) : Except String Service := do
  let methods ← s.methods.mapM (schema.resolveMethod s.full)
  if methods.all fun m ↦ schema.isMessage m.request && schema.isMessage m.response then
    return { s with methods := methods }
  else throw "RPC request/response must be messages"

def validate : Except String (Schema Path) := do
  let types ← schema.types.mapM schema.resolveDefinition
  let services ← schema.services.mapM schema.resolveService
  return { schema with types := types, services := services }

end Schema

/-- `main` before it generates: the schema of a file and of what it imports. -/
def accepted [DecidableEq Path] (host : Host Path) (fuel : ℕ) (path : Path) : Except String (Schema Path) := do
  let schema ← read host fuel path ⟨[], [], []⟩
  schema.validate

end TinyCPlus.Protobuf.Proto
