import Mathlib.Data.List.Basic

/-!
# Constness along access paths

`check_expr` keeps constness as a flag on types.  Selecting a member and indexing a fixed
array hand the flag on; assignment and `++` refuse a location whose type has it.
-/

namespace TinyCPlus.Compiler.ConstPaths

/-! ## Types -/

/-- The types by what an access path can do with them. -/
inductive CType where
  | atom (name : String)
  | string
  | pointer (base : CType)
  | array (element : CType) (count : ℕ)
  | slice (element : CType)
  | vector (element : CType)
  | task (result : CType)
  | named (name : String)
  | const (t : CType)
deriving DecidableEq

namespace CType

/-- `type_const` -/
def typeConst : CType → CType
  | const t => const t
  | t => const t

/-- The flag `qualified`. -/
def isConst : CType → Bool
  | const _ => true
  | _ => false

/-- The type without the flag. -/
def bare : CType → CType
  | const t => t.bare
  | t => t

@[simp] theorem isConst_typeConst (t : CType) : t.typeConst.isConst = true := by
  cases t <;> rfl

@[simp] theorem bare_typeConst (t : CType) : t.typeConst.bare = t.bare := by
  cases t <;> rfl

end CType

inductive MemberKind where
  | variable
  | enumerator
  | property
  | computed
  | function
deriving DecidableEq

structure Member where
  name : String
  type : CType
  kind : MemberKind

/-- The members of the classes. -/
abbrev Classes := String → List Member

/-! ## Checking a path -/

/-- What `check_expr` leaves on a node: its type and the flag NF_LVALUE. -/
structure Checked where
  type : CType
  lvalue : Bool
deriving DecidableEq

/-- What assignment, compound assignment, `++` and `--` ask of their target.  The flag
NF_CONST of symbols, which assignment asks for too, is on enumerators only. -/
def Checked.isTarget (c : Checked) : Bool := c.lvalue && !c.type.isConst

/-- A variable, parameter or field declared const: with a written type and the lengths of its
arrays, or as `const var` with the type of the initializer. -/
inductive Root where
  | typed (base : CType) (counts : List ℕ)
  | inferred (t : CType)

/-- The type of the symbol: `const` is put on the type ahead of the array lengths, and
nowhere on an inferred type. -/
def Root.type : Root → CType
  | typed base counts => counts.foldl CType.array base.typeConst
  | inferred t => t

/-- An access path; the values of the indices and bounds do not matter here. -/
inductive Path where
  | root
  | member (p : Path) (name : String)
  | index (p : Path)
  | slice (p : Path)

/-- `member`: the member of a class, if the type has a class. -/
def findMember (C : Classes) (t : CType) (name : String) : Option Member :=
  match t with
  | .named n => (C n).find? (·.name == name)
  | .vector _ => (C "Array").find? (·.name == name)
  | _ => none

/-- `n->type` of a member: functions have a type of their own. -/
def memberType (m : Member) : CType :=
  if m.kind = .function then .atom "func" else m.type

/-- The flag NF_LVALUE of a member. -/
def memberLvalue (m : Member) : Bool := m.kind == .variable || m.kind == .property

/-- `length` and `data` are built in. -/
def builtinMember (t : CType) (name : String) : Option CType :=
  match t, name with
  | .task _, "handle" => some (.pointer (.atom "void"))
  | .array _ _, "length" | .slice _, "length" | .string, "length" | .vector _, "length" =>
      some (.atom "u64")
  | .array e _, "data" | .slice e, "data" | .vector e, "data" => some (.pointer e)
  | .string, "data" => some (.pointer (.const (.atom "char")))
  | _, _ => none

/-- `check_expr` of N_MEMBER -/
def checkMember (C : Classes) (a : Checked) (name : String) : Option Checked :=
  let t := match a.type.bare with
    | .pointer base => base
    | _ => a.type
  match builtinMember t.bare name with
  | some u => some ⟨u, name == "handle"⟩
  | none =>
      (findMember C t.bare name).map fun m ↦
        ⟨if t.isConst ∧ m.kind ≠ .function then (memberType m).typeConst else memberType m,
          memberLvalue m⟩

/-- `check_expr` of N_INDEX -/
def checkIndex (a : Checked) : Option Checked :=
  match a.type.bare with
  | .pointer base => some ⟨base, true⟩
  | .string => some ⟨.const (.atom "char"), false⟩
  | .array e _ => some ⟨if a.type.isConst then e.typeConst else e, true⟩
  | .slice e | .vector e => some ⟨e, true⟩
  | _ => none

/-- `check_expr` of N_SLICE: the type of the elements is taken without the flag of the
array. -/
def checkSlice (a : Checked) : Option Checked :=
  match a.type.bare with
  | .string => some ⟨a.type, false⟩
  | .array e _ | .slice e | .vector e => some ⟨.slice e, false⟩
  | _ => none

def check (C : Classes) (r : Root) : Path → Option Checked
  | .root => some ⟨r.type, true⟩
  | .member p name => (check C r p).bind (checkMember C · name)
  | .index p => (check C r p).bind checkIndex
  | .slice p => (check C r p).bind checkSlice

/-! ## Paths that stay inside the variable -/

/-- The path passes through no pointer and no slice that is stored in the variable. -/
inductive Inside (C : Classes) (r : Root) : Path → Prop
  | root : Inside C r .root
  | member {p : Path} {a : Checked} {name : String} (hp : Inside C r p)
      (hcheck : check C r p = some a) (hpointer : ∀ base, a.type.bare ≠ .pointer base) :
      Inside C r (.member p name)
  | index {p : Path} {a : Checked} {e : CType} {n : ℕ} (hp : Inside C r p)
      (hcheck : check C r p = some a) (harray : a.type.bare = .array e n) :
      Inside C r (.index p)
  | slice {p : Path} {a : Checked} {e : CType} {n : ℕ} (hp : Inside C r p)
      (hcheck : check C r p = some a) (harray : a.type.bare = .array e n) :
      Inside C r (.slice p)
  | indexSlice {p : Path} (hp : Inside C r (.slice p)) : Inside C r (.index (.slice p))
  | sliceSlice {p : Path} (hp : Inside C r (.slice p)) : Inside C r (.slice (.slice p))

/-- The type that the declarations give a path, without what is around it. -/
def declared (C : Classes) (r : Root) : Path → Option CType
  | .root => some r.type
  | .member p name => (declared C r p).bind fun t ↦
      match builtinMember t.bare name with
      | some u => some u
      | none => (findMember C t.bare name).map memberType
  | .index p => (declared C r p).bind fun t ↦
      match t.bare with
      | .array e _ | .slice e => some e
      | _ => none
  | .slice p => (declared C r p).bind fun t ↦
      match t.bare with
      | .array e _ | .slice e => some (.slice e)
      | _ => none

/-- The declaration of a path is const. -/
def declaredConst (C : Classes) (r : Root) (p : Path) : Bool :=
  (declared C r p).any CType.isConst

/-- The member is built in: the handle of a task, a length or a pointer to the elements. -/
def isBuiltin (C : Classes) (r : Root) (p : Path) (name : String) : Bool :=
  (declared C r p).any fun t ↦ (builtinMember t.bare name).isSome

/-- A const reaches the path: its declaration is const, or the one of something around it
with no slicing and no built-in member in between. -/
def kept (C : Classes) (r : Root) : Path → Bool
  | .root => declaredConst C r .root
  | .member p name =>
      declaredConst C r (.member p name) || kept C r p && !isBuiltin C r p name
  | .index p => declaredConst C r (.index p) || kept C r p
  | .slice p => declaredConst C r (.slice p)

/-! ## The flag along a path -/

section Steps

variable {C : Classes} {r : Root} {p : Path} {a c : Checked} {d : CType}

attribute [local simp] declared

/-- The checked type of a path is the declared one with the const that reaches it; a method
is no location and has no members. -/
structure Reached (C : Classes) (r : Root) (p : Path) (c : Checked) (d : CType) : Prop where
  declared : declared C r p = some d
  bare : c.type.bare = d.bare
  const : c.type.isConst = kept C r p ∨ c = ⟨.atom "func", false⟩

theorem reached_root : Reached C r .root ⟨r.type, true⟩ r.type where
  declared := rfl
  bare := rfl
  const := Or.inl rfl

theorem declaredConst_eq (h : declared C r p = some d) : declaredConst C r p = d.isConst := by
  rw [declaredConst, h]
  rfl

/-- A method has no members and no elements. -/
theorem Reached.const_of_step {f : Checked → Option Checked} (h : Reached C r p a d)
    (hstep : f a = some c) (hfunc : f ⟨.atom "func", false⟩ = none) :
    a.type.isConst = kept C r p := by
  rcases h.const with hconst | rfl
  · exact hconst
  · rw [hfunc] at hstep
    cases hstep

theorem Reached.index {e : CType} {n : ℕ} (h : Reached C r p a d)
    (harray : a.type.bare = .array e n) (hcheck : checkIndex a = some c) :
    Reached C r (.index p) c e := by
  have hconst := h.const_of_step hcheck rfl
  have hdeclared : ConstPaths.declared C r (.index p) = some e := by
    simp [h.declared, ← h.bare, harray]
  rw [checkIndex, harray] at hcheck
  cases hcheck
  refine ⟨hdeclared, ?_, Or.inl ?_⟩
  · change (if a.type.isConst = true then e.typeConst else e).bare = e.bare
    split
    · exact e.bare_typeConst
    · rfl
  · change (if a.type.isConst = true then e.typeConst else e).isConst = _
    rw [kept, declaredConst_eq hdeclared, ← hconst]
    split
    · rename_i ha
      rw [ha, Bool.or_true]
      exact e.isConst_typeConst
    · rename_i ha
      rw [Bool.not_eq_true] at ha
      rw [ha, Bool.or_false]

theorem Reached.slice {e : CType} {n : ℕ} (h : Reached C r p a d)
    (harray : a.type.bare = .array e n) (hcheck : checkSlice a = some c) :
    Reached C r (.slice p) c (.slice e) := by
  have hdeclared : ConstPaths.declared C r (.slice p) = some (.slice e) := by
    simp [h.declared, ← h.bare, harray]
  rw [checkSlice, harray] at hcheck
  cases hcheck
  exact ⟨hdeclared, rfl, Or.inl (declaredConst_eq hdeclared).symm⟩

/-- An element of a slicing has the type of the elements, as they are declared. -/
theorem Reached.indexSlice {e : CType} (h : Reached C r (.slice p) a (.slice e))
    (hcheck : checkIndex a = some c) : Reached C r (.index (.slice p)) c e := by
  have hdeclared : ConstPaths.declared C r (.index (.slice p)) = some e := by
    rw [ConstPaths.declared, h.declared]
    rfl
  have hbare : a.type.bare = .slice e := h.bare
  rw [checkIndex, hbare] at hcheck
  cases hcheck
  refine ⟨hdeclared, rfl, Or.inl ?_⟩
  rw [kept, declaredConst_eq hdeclared, kept, declaredConst_eq h.declared]
  exact (Bool.or_false _).symm

theorem Reached.sliceSlice {e : CType} (h : Reached C r (.slice p) a (.slice e))
    (hcheck : checkSlice a = some c) : Reached C r (.slice (.slice p)) c (.slice e) := by
  have hdeclared : ConstPaths.declared C r (.slice (.slice p)) = some (.slice e) := by
    rw [ConstPaths.declared, h.declared]
    rfl
  have hbare : a.type.bare = .slice e := h.bare
  rw [checkSlice, hbare] at hcheck
  cases hcheck
  exact ⟨hdeclared, rfl, Or.inl (declaredConst_eq hdeclared).symm⟩

theorem Reached.member {name : String} (h : Reached C r p a d)
    (hpointer : ∀ base, a.type.bare ≠ .pointer base)
    (hcheck : checkMember C a name = some c) : ∃ u, Reached C r (.member p name) c u := by
  have hconst := h.const_of_step (f := fun a ↦ checkMember C a name) hcheck rfl
  have hobject : (match a.type.bare with
      | .pointer base => base
      | _ => a.type) = a.type := by
    split
    · rename_i base hbase
      exact absurd hbase (hpointer base)
    · rfl
  rw [checkMember, hobject, h.bare] at hcheck
  rcases hbuiltin : builtinMember d.bare name with _ | u
  · rw [hbuiltin] at hcheck
    obtain ⟨m, hm, hc⟩ := Option.map_eq_some_iff.1 hcheck
    have hdeclared : ConstPaths.declared C r (.member p name) = some (memberType m) := by
      simp [h.declared, hbuiltin, hm]
    have hisBuiltin : isBuiltin C r p name = false := by
      rw [isBuiltin, h.declared]
      exact congrArg Option.isSome hbuiltin
    rw [← hc]
    refine ⟨memberType m, hdeclared, ?_, ?_⟩
    · change (if _ then _ else _ : CType).bare = _
      split
      · exact (memberType m).bare_typeConst
      · rfl
    · by_cases hkind : m.kind = .function
      · right
        simp only [hkind, memberType, memberLvalue, ne_eq, not_true_eq_false, and_false, if_false,
          if_true]
        rfl
      · left
        rw [kept, declaredConst_eq hdeclared, hisBuiltin, ← hconst, Bool.not_false, Bool.and_true]
        change (if _ then _ else _ : CType).isConst = _
        split
        · rename_i ha
          rw [ha.1, Bool.or_true]
          exact (memberType m).isConst_typeConst
        · rename_i ha
          have hmutable : a.type.isConst = false :=
            Bool.eq_false_iff.2 fun hconst ↦ ha ⟨hconst, hkind⟩
          rw [hmutable, Bool.or_false]
  · rw [hbuiltin] at hcheck
    cases hcheck
    have hdeclared : ConstPaths.declared C r (.member p name) = some u := by
      simp [h.declared, hbuiltin]
    have hisBuiltin : isBuiltin C r p name = true := by
      rw [isBuiltin, h.declared]
      exact congrArg Option.isSome hbuiltin
    refine ⟨u, hdeclared, rfl, Or.inl ?_⟩
    rw [kept, declaredConst_eq hdeclared, hisBuiltin, Bool.not_true, Bool.and_false,
      Bool.or_false]

end Steps

/-- The elements of a slicing that stays inside are the ones that were declared. -/
theorem reached_of_inside {C : Classes} {r : Root} {p : Path} (hp : Inside C r p) :
    ∀ c, check C r p = some c →
      ∃ d, Reached C r p c d ∧ ∀ q, p = .slice q → ∃ e, d = .slice e := by
  induction hp with
  | root =>
    intro c hc
    cases hc
    exact ⟨r.type, reached_root, fun q hq ↦ by cases hq⟩
  | member hp hcheck hpointer ih =>
    intro c hc
    obtain ⟨d, hreached, -⟩ := ih _ hcheck
    rw [check, hcheck, Option.bind_some] at hc
    obtain ⟨u, hu⟩ := hreached.member hpointer hc
    exact ⟨u, hu, fun q hq ↦ by cases hq⟩
  | index hp hcheck harray ih =>
    intro c hc
    obtain ⟨d, hreached, -⟩ := ih _ hcheck
    rw [check, hcheck, Option.bind_some] at hc
    exact ⟨_, hreached.index harray hc, fun q hq ↦ by cases hq⟩
  | slice hp hcheck harray ih =>
    intro c hc
    obtain ⟨d, hreached, -⟩ := ih _ hcheck
    rw [check, hcheck, Option.bind_some] at hc
    exact ⟨_, hreached.slice harray hc, fun q hq ↦ ⟨_, rfl⟩⟩
  | indexSlice hp ih =>
    intro c hc
    obtain ⟨a, ha, hindex⟩ := Option.bind_eq_some_iff.1 hc
    obtain ⟨d, hreached, hslice⟩ := ih a ha
    obtain ⟨e, rfl⟩ := hslice _ rfl
    exact ⟨e, hreached.indexSlice hindex, fun q hq ↦ by cases hq⟩
  | sliceSlice hp ih =>
    intro c hc
    obtain ⟨a, ha, hsliced⟩ := Option.bind_eq_some_iff.1 hc
    obtain ⟨d, hreached, hslice⟩ := ih a ha
    obtain ⟨e, rfl⟩ := hslice _ rfl
    exact ⟨.slice e, hreached.sliceSlice hsliced, fun q hq ↦ ⟨e, rfl⟩⟩

/-- `int[3] xs; const int id;` -/
def rowClass : Classes := fun name ↦
  if name = "Row" then
    [⟨"xs", .array (.atom "int") 3, .variable⟩, ⟨"id", .const (.atom "int"), .variable⟩]
  else []

end TinyCPlus.Compiler.ConstPaths
