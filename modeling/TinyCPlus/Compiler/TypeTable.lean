import TinyCPlus.Compiler.Parser

/-!
# The type table (`types.c`)

`parse_type` gives a type as an entry of a table that the whole compilation shares.  Pointers and
the like are found by their parts, tuples and generic types by `type_equal`; a function type is
made out of an entry for a generic type.
-/

namespace TinyCPlus.Compiler

/-- The kinds up to `TY_NULL`, and `TY_AUTO`. -/
inductive Primitive where
  | void | bool | i8 | u8 | i16 | u16 | i32 | u32 | i64 | u64 | float | double | char | string
  | null | auto
deriving DecidableEq, Repr

inductive TypeKind where
  | primitive (k : Primitive)
  | named | enum | pointer | array | slice | tuple | func | closure
deriving DecidableEq, Repr

/-- A type.  The types inside are places in the table. -/
structure TypeEntry where
  kind : TypeKind
  name : List Char
  base : Option ℕ
  items : List ℕ
  count : ℕ
  qualified : Bool
  id : ℕ
deriving DecidableEq, Repr

/-- The part of the context that the types use. -/
structure TypeTable where
  /-- The entries, the oldest first. -/
  entries : List TypeEntry
  builtin : Primitive → Option ℕ
  nextId : ℕ

namespace TypeTable

def empty : TypeTable := ⟨[], fun _ ↦ none, 0⟩

/-- `add_type`, with the fields that the caller fills in. -/
def add (s : TypeTable) (t : TypeEntry) : ℕ × TypeTable :=
  (s.entries.length,
    { s with entries := s.entries ++ [{ t with id := s.nextId + 1 }], nextId := s.nextId + 1 })

/-- The list of types, which starts with the newest. -/
def newest (s : TypeTable) : List (ℕ × TypeEntry) :=
  (s.entries.zipIdx.map fun x ↦ (x.2, x.1)).reverse

/-- The first type of a list that passes a test; the test may fail to return. -/
def firstMatch (test : TypeEntry → Option Bool) : List (ℕ × TypeEntry) → Option (Option ℕ)
  | [] => some none
  | (p, t) :: rest => do if ← test t then some (some p) else firstMatch test rest

def find (s : TypeTable) (test : TypeEntry → Bool) : Option ℕ :=
  (s.newest.find? fun x ↦ test x.2).map Prod.fst

/-! ## Names -/

/-- The names of `TY_VOID` to `TY_NULL`. -/
def names : List (String × Primitive) :=
  [("void", .void), ("bool", .bool), ("i8", .i8), ("u8", .u8), ("i16", .i16), ("u16", .u16),
    ("i32", .i32), ("u32", .u32), ("i64", .i64), ("u64", .u64), ("float", .float),
    ("double", .double), ("char", .char), ("string", .string), ("null", .null)]

def aliases : List (String × Primitive) :=
  [("int", .i32), ("uint", .u32), ("byte", .u8), ("short", .i16), ("long", .i64),
    ("ulong", .u64), ("Error", .i32), ("StringView", .string)]

def lookup (table : List (String × Primitive)) (name : List Char) : Option Primitive :=
  (table.find? fun row ↦ row.1.toList = name).map Prod.snd

def primitiveName (k : Primitive) : List Char :=
  match names.find? fun row ↦ row.2 = k with
  | some row => row.1.toList
  | none => "var".toList

def blank (kind : TypeKind) (name : List Char) : TypeEntry := ⟨kind, name, none, [], 0, false, 0⟩

/-- `type_primitive` -/
def typePrimitive (k : Primitive) (s : TypeTable) : ℕ × TypeTable :=
  match s.builtin k with
  | some p => (p, s)
  | none =>
      let (p, s) := s.add (blank (.primitive k) (primitiveName k))
      (p, { s with builtin := Function.update s.builtin k (some p) })

/-- The view of `u64` under its name in C, which takes no id. -/
def typeSize (s : TypeTable) : ℕ × TypeTable :=
  match s.find fun t ↦ t.kind = .primitive .u64 && t.name = "size_t".toList with
  | some p => (p, s)
  | none =>
      let (base, s) := typePrimitive .u64 s
      let t := s.entries.getD base (blank (.primitive .u64) [])
      (s.entries.length, { s with entries := s.entries ++ [{ t with name := "size_t".toList }] })

/-- `type_named` -/
def typeNamed (name : List Char) (s : TypeTable) : ℕ × TypeTable :=
  match lookup names name with
  | some k => typePrimitive k s
  | none =>
      if name = "size_t".toList then typeSize s
      else
        match lookup aliases name with
        | some k => typePrimitive k s
        | none =>
            if name = "var".toList then typePrimitive .auto s
            else
              match s.find fun t ↦
                (t.kind = .named || t.kind = .enum) && t.items = [] && t.name = name with
              | some p => (p, s)
              | none => s.add (blank .named name)

/-! ## TypeTable with parts -/

def nameAt (s : TypeTable) (p : ℕ) : List Char := ((s.entries[p]?).map TypeEntry.name).getD []

/-- The name of a type that `type_derive` makes. -/
def derivedName (kind : TypeKind) (base : List Char) (count : ℕ) : List Char :=
  match kind with
  | .pointer => base ++ ['*']
  | .array => base ++ '[' :: Nat.toDigits 10 count ++ [']']
  | _ => "Slice<".toList ++ base ++ ['>']

/-- `type_derive` -/
def typeDerive (kind : TypeKind) (base count : ℕ) (s : TypeTable) : ℕ × TypeTable :=
  match s.find fun t ↦ t.kind = kind && t.base = some base && t.count = count with
  | some p => (p, s)
  | none =>
      s.add ⟨kind, derivedName kind (s.nameAt base) count, some base, [], count, false, 0⟩

/-- Two lists of types side by side. -/
def itemsEqual (equal : ℕ → ℕ → Option Bool) : List ℕ → List ℕ → Option Bool
  | x :: xs, y :: ys => do if ← equal x y then itemsEqual equal xs ys else some false
  | [], [] => some true
  | _, _ => some false

def baseEqual (equal : ℕ → ℕ → Option Bool) : Option ℕ → Option ℕ → Option Bool
  | some x, some y => equal x y
  | none, none => some true
  | _, _ => some false

/-- `type_equal` on two types that are not the same entry. -/
def entryEqual (equal : ℕ → ℕ → Option Bool) (a b : TypeEntry) : Option Bool :=
  if a.kind ≠ b.kind ∨ a.qualified ≠ b.qualified then some false
  else
    match a.kind with
    | .pointer | .array | .slice =>
        if a.count = b.count then baseEqual equal a.base b.base else some false
    | .enum => some (a.name = b.name)
    | .tuple | .func | .closure => do
        if ← baseEqual equal a.base b.base then itemsEqual equal a.items b.items else some false
    | .named => if a.name = b.name then itemsEqual equal a.items b.items else some false
    | .primitive _ => some true

/-- `type_equal`, as deep as the fuel reaches. -/
def equalFuel (s : TypeTable) : ℕ → ℕ → ℕ → Option Bool
  | 0, _, _ => none
  | fuel + 1, a, b =>
      if a = b then some true
      else do
        let x ← s.entries[a]?
        let y ← s.entries[b]?
        entryEqual (s.equalFuel fuel) x y

/-- `type_equal`.  A way down that is longer than there are pairs of entries meets a pair again
and goes on for ever. -/
def typeEqual (s : TypeTable) : ℕ → ℕ → Option Bool := s.equalFuel (s.entries.length ^ 2 + 1)

/-- `type_tuple` -/
def typeTuple (items : List ℕ) (s : TypeTable) : Option (ℕ × TypeTable) := do
  let probe : TypeEntry := ⟨.tuple, [], none, items, 0, false, 0⟩
  match ← firstMatch (fun t ↦ entryEqual s.typeEqual t probe) s.newest with
  | some p => some (p, s)
  | none =>
      some (s.add { probe with name := "tc_tuple_".toList ++ Nat.toDigits 10 (s.nextId + 1) })

/-- `type_generic` -/
def typeGeneric (name : List Char) (items : List ℕ) (s : TypeTable) : Option (ℕ × TypeTable) := do
  let test (t : TypeEntry) : Option Bool :=
    if t.kind ≠ .named ∨ t.items = [] ∨ t.name ≠ name then some false
    else itemsEqual s.typeEqual t.items items
  match ← firstMatch test s.newest with
  | some p => some (p, s)
  | none => some (s.add { blank .named name with items })

/-- The type that `parse_type` makes of a generic type for `func` and `closure`. -/
def typeFunction (closure : Bool) (params : List ℕ) (result : ℕ) (s : TypeTable) :
    Option (ℕ × TypeTable) := do
  let (p, s) ← typeGeneric "Function".toList params s
  let change (t : TypeEntry) : TypeEntry :=
    { t with kind := if closure then .closure else .func, base := some result }
  some (p, { s with entries := s.entries.modify p change })

/-- `type_const` -/
def typeConst (p : ℕ) (s : TypeTable) : Option (ℕ × TypeTable) := do
  let t ← s.entries[p]?
  let name := "const ".toList ++ t.name
  if t.qualified then some (p, s)
  else
    match s.find fun u ↦ u.qualified && u.kind = t.kind && u.base = t.base && u.name = name with
    | some q => some (q, s)
    | none => some (s.add { t with qualified := true, name })

end TypeTable

/-! ## `parse_type` -/

section ParseType

open TypeTable

/-- Computations on the type table. -/
abbrev TypeM := StateT TypeTable Option

mutual

def parseTypeIn : ℕ → ℕ → List Token → TypeM (ℕ × List Token)
  | 0, _, _ => failure
  | fuel + 1, depth, ts => do
      let cn := isAt "const" ts
      let ts := if cn then ts.tail else ts
      let depth ← enter depth
      let (t, ts) ←
        (match eat "(" ts with
        | some ts => do
            let (items, ts) ← typeItemsIn fuel depth ")" ts
            return (← typeTuple items, ts)
        | none => do
            let (name, ts) ← ident ts
            let (name, ts) ← dotted fuel name ts
            match eat "<" ts with
            | none => return (← modifyGet (typeNamed name), ts)
            | some ts =>
                if name = "func".toList ∨ name = "closure".toList then do
                  let (result, ts) ← parseTypeIn fuel depth ts
                  let ts ← expect "(" ts
                  let (params, ts) ←
                    (match eat ")" ts with
                    | some ts => return ([], ts)
                    | none => typeItemsIn fuel depth ")" ts)
                  let ts ← expect ">" ts
                  return (← typeFunction (name = "closure".toList) params result, ts)
                else do
                  let (items, ts) ← typeItemsIn fuel depth ">" ts
                  if name = "Slice".toList then
                    match items with
                    | [item] => return (← modifyGet (typeDerive .slice item 0), ts)
                    | _ => failure
                  else return (← typeGeneric name items, ts))
      let t ← if cn then typeConst t else pure t
      typeSuffixIn fuel t ts

def typeItemsIn : ℕ → ℕ → String → List Token → TypeM (List ℕ × List Token)
  | 0, _, _, _ => failure
  | fuel + 1, depth, close, ts => do
      let (t, ts) ← parseTypeIn fuel depth ts
      match eat "," ts with
      | some ts => do
          let (items, ts) ← typeItemsIn fuel depth close ts
          return (t :: items, ts)
      | none => do
          let ts ← closeItems close ts
          return ([t], ts)

def typeSuffixIn : ℕ → ℕ → List Token → TypeM (ℕ × List Token)
  | 0, _, _ => failure
  | fuel + 1, t, ts =>
      if isAt "*" ts then do
        let t ← modifyGet (typeDerive .pointer t 0)
        typeSuffixIn fuel t ts.tail
      else if isAt "[" ts then do
        let (len, ts) ← arrayLength ts.tail
        let ts ← expect "]" ts
        let t ← modifyGet (typeDerive .array t len)
        typeSuffixIn fuel t ts
      else return (t, ts)

end

/-- The entry of a type that is read already. -/
def TypeExpr.intern : TypeExpr → TypeM ℕ
  | .named name => modifyGet (typeNamed name)
  | .generic name items => do typeGeneric name (← internAll items)
  | .function closure params result => do
      let result ← result.intern
      typeFunction closure (← internAll params) result
  | .tuple items => do typeTuple (← internAll items)
  | .slice item => do
      let p ← item.intern
      modifyGet (typeDerive .slice p 0)
  | .const base => do typeConst (← base.intern)
  | .pointer base => do
      let p ← base.intern
      modifyGet (typeDerive .pointer p 0)
  | .array base count => do
      let p ← base.intern
      modifyGet (typeDerive .array p count)
where
  internAll : List TypeExpr → TypeM (List ℕ)
  | [] => return []
  | t :: ts => do
      let p ← t.intern
      return p :: (← internAll ts)

/-! ## Reading, then making the entry -/

namespace TypeM

@[simp] theorem liftM_some {α : Type} (a : α) : (liftM (some a) : TypeM α) = pure a := rfl

@[simp] theorem liftM_none {α : Type} : (liftM (none : Option α) : TypeM α) = failure := rfl

@[simp] theorem failure_bind {α β : Type} (k : α → TypeM β) :
    ((failure : TypeM α) >>= k) = failure := rfl

@[simp] theorem bind_failure {α β : Type} (m : TypeM α) :
    (m >>= fun _ ↦ (failure : TypeM β)) = failure := by
  funext s
  change (m s).bind (fun _ ↦ none) = none
  cases m s <;> rfl

end TypeM

/-- The entry of a type that `parseType` reads. -/
def interned (r : Option (TypeExpr × List Token)) : TypeM (ℕ × List Token) := do
  let (t, ts) ← r
  return (← t.intern, ts)

def internedItems (r : Option (List TypeExpr × List Token)) : TypeM (List ℕ × List Token) := do
  let (items, ts) ← r
  return (← TypeExpr.intern.internAll items, ts)

@[simp] theorem interned_none : interned none = failure := rfl

@[simp] theorem interned_some (t : TypeExpr) (ts : List Token) :
    interned (some (t, ts)) = do return (← t.intern, ts) := rfl

@[simp] theorem internedItems_none : internedItems none = failure := rfl

@[simp] theorem internedItems_some (items : List TypeExpr) (ts : List Token) :
    internedItems (some (items, ts)) = do return (← TypeExpr.intern.internAll items, ts) := rfl

/-- The `*` and `[n]` wrap the entry as they wrap the type. -/
theorem typeSuffixIn_intern (fuel : ℕ) (t : TypeExpr) (ts : List Token) :
    (do typeSuffixIn fuel (← t.intern) ts) = interned (typeSuffix fuel t ts) := by
  induction fuel generalizing t ts with
  | zero => simp [typeSuffixIn, typeSuffix]
  | succ fuel ih =>
    rw [typeSuffix]
    split
    · rw [← ih]
      simp [typeSuffixIn, *, TypeExpr.intern]
    · split
      · cases hlen : arrayLength ts.tail with
        | none => simp [typeSuffixIn, *]
        | some r =>
          cases hclose : expect "]" r.2 with
          | none => simp [typeSuffixIn, *]
          | some rest => simp [typeSuffixIn, *, ← ih, TypeExpr.intern]
      · simp [typeSuffixIn, *]

theorem typeItemsIn_eq {fuel : ℕ}
    (ih : ∀ depth ts, parseTypeIn fuel depth ts = interned (parseType fuel depth ts))
    (iha : ∀ depth close ts, typeItemsIn fuel depth close ts =
      internedItems (typeItems fuel depth close ts)) (depth : ℕ) (close : String)
    (ts : List Token) :
    typeItemsIn (fuel + 1) depth close ts =
      internedItems (typeItems (fuel + 1) depth close ts) := by
  rw [typeItemsIn, typeItems, ih]
  rcases parseType fuel depth ts with _ | ⟨t, ts⟩
  · simp
  · cases hcomma : eat "," ts with
    | none =>
      cases hclose : closeItems close ts with
      | none => simp [hcomma, hclose]
      | some rest => simp [hcomma, hclose, TypeExpr.intern.internAll]
    | some rest =>
      simp only [interned_some, iha]
      cases hitems : typeItems fuel depth close rest with
      | none => simp [hcomma, hitems]
      | some q =>
        obtain ⟨items, ts⟩ := q
        simp [hcomma, hitems, TypeExpr.intern.internAll]

theorem interned_suffix {A : TypeM (ℕ × List Token)} {B : Option (TypeExpr × List Token)}
    (h : A = interned B) (fuel : ℕ) (cn : Bool) :
    (do
      let (t, ts) ← A
      let t ← if cn then typeConst t else pure t
      typeSuffixIn fuel t ts) =
    interned (do
      let (t, ts) ← B
      typeSuffix fuel (if cn then .const t else t) ts) := by
  subst h
  rcases B with _ | ⟨t, ts⟩
  · simp
  · have hsuffix := typeSuffixIn_intern fuel (if cn then .const t else t) ts
    cases cn
    · simpa using hsuffix
    · simpa [TypeExpr.intern] using hsuffix

/-! ## The parts of `parse_type` -/

/-- The parameters that `parseType` reads behind the `(` of a function type. -/
def paramsTail (fuel depth : ℕ) (ts : List Token) : Option (List TypeExpr × List Token) :=
  match eat ")" ts with
  | some ts => some ([], ts)
  | none => typeItems fuel depth ")" ts

/-- What `parseType` reads behind `func<` and `closure<`. -/
def functionTail (fuel depth : ℕ) (closure : Bool) (ts : List Token) :
    Option (TypeExpr × List Token) := do
  let (result, ts) ← parseType fuel depth ts
  let ts ← expect "(" ts
  let (params, ts) ← paramsTail fuel depth ts
  let ts ← expect ">" ts
  some (.function closure params result, ts)

/-- What it reads behind another name and `<`. -/
def genericTail (fuel depth : ℕ) (name : List Char) (ts : List Token) :
    Option (TypeExpr × List Token) := do
  let (items, ts) ← typeItems fuel depth ">" ts
  if name = "Slice".toList then
    match items with
    | [item] => some (.slice item, ts)
    | _ => none
  else some (.generic name items, ts)

/-- What it reads behind a name. -/
def nameTail (fuel depth : ℕ) (name : List Char) (ts : List Token) :
    Option (TypeExpr × List Token) :=
  match eat "<" ts with
  | none => some (.named name, ts)
  | some ts =>
      if name = "func".toList ∨ name = "closure".toList then
        functionTail fuel depth (name = "closure".toList) ts
      else genericTail fuel depth name ts

/-- What it reads in front of the `*` and `[n]`. -/
def typeHead (fuel depth : ℕ) (ts : List Token) : Option (TypeExpr × List Token) :=
  match eat "(" ts with
  | some ts => (typeItems fuel depth ")" ts).map fun r ↦ (.tuple r.1, r.2)
  | none => do
      let (name, ts) ← ident ts
      let (name, ts) ← dotted fuel name ts
      nameTail fuel depth name ts

theorem parseType_succ (fuel depth : ℕ) (ts : List Token) :
    parseType (fuel + 1) depth ts = (enter depth).bind fun depth ↦
      (typeHead fuel depth (if isAt "const" ts then ts.tail else ts)).bind fun r ↦
        typeSuffix fuel (if isAt "const" ts then .const r.1 else r.1) r.2 := by
  rw [parseType]
  rfl

def paramsTailIn (fuel depth : ℕ) (ts : List Token) : TypeM (List ℕ × List Token) :=
  match eat ")" ts with
  | some ts => return ([], ts)
  | none => typeItemsIn fuel depth ")" ts

def functionTailIn (fuel depth : ℕ) (closure : Bool) (ts : List Token) :
    TypeM (ℕ × List Token) := do
  let (result, ts) ← parseTypeIn fuel depth ts
  let ts ← expect "(" ts
  let (params, ts) ← paramsTailIn fuel depth ts
  let ts ← expect ">" ts
  return (← typeFunction closure params result, ts)

def genericTailIn (fuel depth : ℕ) (name : List Char) (ts : List Token) :
    TypeM (ℕ × List Token) := do
  let (items, ts) ← typeItemsIn fuel depth ">" ts
  if name = "Slice".toList then
    match items with
    | [item] => return (← modifyGet (typeDerive .slice item 0), ts)
    | _ => failure
  else return (← typeGeneric name items, ts)

def nameTailIn (fuel depth : ℕ) (name : List Char) (ts : List Token) :
    TypeM (ℕ × List Token) :=
  match eat "<" ts with
  | none => do return (← modifyGet (typeNamed name), ts)
  | some ts =>
      if name = "func".toList ∨ name = "closure".toList then
        functionTailIn fuel depth (name = "closure".toList) ts
      else genericTailIn fuel depth name ts

def typeHeadIn (fuel depth : ℕ) (ts : List Token) : TypeM (ℕ × List Token) :=
  match eat "(" ts with
  | some ts => do
      let (items, ts) ← typeItemsIn fuel depth ")" ts
      return (← typeTuple items, ts)
  | none => do
      let (name, ts) ← ident ts
      let (name, ts) ← dotted fuel name ts
      nameTailIn fuel depth name ts

theorem parseTypeIn_succ (fuel depth : ℕ) (ts : List Token) :
    parseTypeIn (fuel + 1) depth ts = (do
      let depth ← enter depth
      let (t, ts') ← typeHeadIn fuel depth (if isAt "const" ts then ts.tail else ts)
      let t ← if isAt "const" ts then typeConst t else pure t
      typeSuffixIn fuel t ts') := by
  rw [parseTypeIn]
  rfl

section

variable {fuel : ℕ}
  (ih : ∀ depth ts, parseTypeIn fuel depth ts = interned (parseType fuel depth ts))
  (iha : ∀ depth close ts, typeItemsIn fuel depth close ts =
    internedItems (typeItems fuel depth close ts))

include ih iha

omit ih in
theorem paramsTailIn_eq (depth : ℕ) (ts : List Token) :
    paramsTailIn fuel depth ts = internedItems (paramsTail fuel depth ts) := by
  rw [paramsTailIn, paramsTail]
  cases eat ")" ts with
  | some ts => rfl
  | none => exact iha depth ")" ts

theorem functionTailIn_eq (depth : ℕ) (closure : Bool) (ts : List Token) :
    functionTailIn fuel depth closure ts = interned (functionTail fuel depth closure ts) := by
  rw [functionTailIn, functionTail, ih]
  rcases parseType fuel depth ts with _ | ⟨result, ts⟩
  · simp
  · cases hopen : expect "(" ts with
    | none => simp [hopen]
    | some ts =>
      rcases hparams : paramsTail fuel depth ts with _ | ⟨params, ts⟩
      · simp [hopen, paramsTailIn_eq iha, hparams]
      · cases hangle : expect ">" ts with
        | none => simp [hopen, paramsTailIn_eq iha, hparams, hangle]
        | some ts => simp [hopen, paramsTailIn_eq iha, hparams, hangle, TypeExpr.intern]

omit ih in
theorem genericTailIn_eq (depth : ℕ) (name : List Char) (ts : List Token) :
    genericTailIn fuel depth name ts = interned (genericTail fuel depth name ts) := by
  rw [genericTailIn, genericTail, iha]
  rcases typeItems fuel depth ">" ts with _ | ⟨items, ts⟩
  · simp
  · by_cases hslice : name = "Slice".toList
    · rcases items with _ | ⟨item, _ | ⟨item', items⟩⟩
      · simp [hslice, TypeExpr.intern.internAll]
      · simp [hslice, TypeExpr.intern, TypeExpr.intern.internAll]
      · simp [hslice, TypeExpr.intern.internAll]
    · simp only [interned_some, internedItems_some, if_neg hslice, Option.bind_eq_bind,
        Option.bind_some]
      simp [TypeExpr.intern]

theorem nameTailIn_eq (depth : ℕ) (name : List Char) (ts : List Token) :
    nameTailIn fuel depth name ts = interned (nameTail fuel depth name ts) := by
  rw [nameTailIn, nameTail]
  cases eat "<" ts with
  | none => rfl
  | some ts =>
    dsimp only
    split
    · exact functionTailIn_eq ih iha depth _ ts
    · exact genericTailIn_eq iha depth name ts

theorem typeHeadIn_eq (depth : ℕ) (ts : List Token) :
    typeHeadIn fuel depth ts = interned (typeHead fuel depth ts) := by
  rw [typeHeadIn, typeHead]
  cases eat "(" ts with
  | some ts =>
    simp only [iha]
    rcases typeItems fuel depth ")" ts with _ | ⟨items, ts⟩
    · simp
    · simp [TypeExpr.intern]
  | none =>
    rcases ident ts with _ | ⟨name, ts⟩
    · simp
    · rcases hdotted : dotted fuel name ts with _ | ⟨name, ts⟩
      · simp [hdotted]
      · simp only [TypeM.liftM_some, pure_bind, hdotted, Option.bind_eq_bind, Option.bind_some]
        exact nameTailIn_eq ih iha depth name ts

end

/-- Reading a type into the table is reading it and then making its entry. -/
theorem parseTypeIn_eq (fuel : ℕ) :
    (∀ depth ts, parseTypeIn fuel depth ts = interned (parseType fuel depth ts)) ∧
      ∀ depth close ts, typeItemsIn fuel depth close ts =
        internedItems (typeItems fuel depth close ts) := by
  induction fuel with
  | zero => exact ⟨fun _ _ ↦ rfl, fun _ _ _ ↦ rfl⟩
  | succ fuel ih =>
    obtain ⟨ih, iha⟩ := ih
    refine ⟨fun depth ts ↦ ?_, fun depth close ts ↦ typeItemsIn_eq ih iha depth close ts⟩
    rw [parseTypeIn_succ, parseType_succ]
    cases enter depth with
    | none => simp
    | some depth => exact interned_suffix (typeHeadIn_eq ih iha depth _) fuel _

end ParseType

end TinyCPlus.Compiler
