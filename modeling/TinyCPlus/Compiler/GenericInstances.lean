import TinyCPlus.Compiler.Generics

/-!
# What an instance should be

The instance of a generic declaration should be the tree of the declaration with every formal
replaced, wherever it stands as a type or as an expression that is a type.  `subType` leaves out
function types, mistakes const types for other entries of the table, and `clone` leaves out
expressions.
-/

namespace TinyCPlus.Compiler.Generics

/-! ## Replacing formals -/

/-- A type with `const` in front, which is written only once. -/
def qualified : TypeExpr → TypeExpr
  | .const t => .const t
  | t => .const t

section Replaced

variable (map : Substitution)

mutual

/-- A type with every formal in it replaced. -/
def replaced : TypeExpr → TypeExpr
  | .named name => (map.find name).getD (.named name)
  | .generic name items => .generic name (replacedAll items)
  | .function closure params result => .function closure (replacedAll params) (replaced result)
  | .tuple items => .tuple (replacedAll items)
  | .slice t => .slice (replaced t)
  | .pointer t => .pointer (replaced t)
  | .array t count => .array (replaced t) count
  | .const t => qualified (replaced t)

def replacedAll : List TypeExpr → List TypeExpr
  | [] => []
  | t :: ts => replaced t :: replacedAll ts

end

/-- The identifier that a type is as an expression, with the type behind it if it is generic. -/
def spelledAs : TypeExpr → Option (List Char × Option TypeExpr)
  | .named name => some (name, none)
  | .generic name items => some (name, some (.generic name items))
  | _ => none

/-- The identifiers `occurs` says to be types, with the type that their formal stands for. -/
def NodeFields.standsFor (occurs : ℕ → Bool) (f : NodeFields) : Option TypeExpr :=
  if f.kind = .id ∧ f.declType = none ∧ occurs f.id then f.name.bind map.find else none

variable (occurs : ℕ → Bool)

/-- The fields of a node with the formals replaced, up to its identity. -/
structure NodeFields.Replaces (f f' : NodeFields) : Prop where
  kind : f'.kind = f.kind
  flags : f'.flags = f.flags
  label : f'.label = f.label
  type : f'.type = f.type.map (replaced map)
  expression : match f.standsFor map occurs with
    | none => f'.name = f.name ∧ f'.text = f.text ∧ f'.declType = f.declType.map (replaced map)
    | some t => ∃ name declType, spelledAs t = some (name, declType) ∧
        f'.name = some name ∧ f'.text = some name ∧ f'.declType = declType

/-- A tree with the formals replaced, up to the identities of the nodes. -/
def Node.Replaces : Node → Node → Prop
  | .null, .null => True
  | .node f a b c body params args next, .node f' a' b' c' body' params' args' next' =>
      f.Replaces map occurs f' ∧ a.Replaces a' ∧ b.Replaces b' ∧ c.Replaces c' ∧
        body.Replaces body' ∧ params.Replaces params' ∧ args.Replaces args' ∧ next.Replaces next'
  | _, _ => False

/-- A generic declaration without its formals and with the others replaced, up to the name. -/
def Node.Instance (t : TypeExpr) : Node → Node → Prop
  | .node f a b c body params args _, .node f' a' b' c' body' params' args' next' =>
      f'.kind = f.kind ∧ f'.flags = f.flags ∧ f'.label = f.label ∧ f'.text = f.text ∧
        f'.declType = f.declType.map (replaced map) ∧
        f'.type = (if f.kind = .class then some t else f.type.map (replaced map)) ∧
        a.Replaces map occurs a' ∧ b.Replaces map occurs b' ∧ c.Replaces map occurs c' ∧
        body.Replaces map occurs body' ∧
        (if f.kind = .class then params' = .null else params.Replaces map occurs params') ∧
        (if f.kind = .class then args.Replaces map occurs args' else args' = .null) ∧
        next' = .null
  | _, _ => False

end Replaced

/-! ## What the code copies right -/

section Faithful

variable (view : TypeView) (map : Substitution)

mutual

/-- The types that `subType` replaces as it should: no formal within a function type or with the
name of a built-in type, and const only where the table has the const type. -/
def Faithful : TypeExpr → Prop
  | .named name => view.named name = true ∨ replaced map (.named name) = .named name
  | .generic _ items | .tuple items => FaithfulAll items
  | .function closure params result =>
      replaced map (.function closure params result) = .function closure params result
  | .slice t => Faithful t ∧ view.constSlice (replaced map t) = false
  | .pointer t | .array t _ => Faithful t
  | .const t => FaithfulConst t

/-- The types that `subType` replaces as it should behind `const`. -/
def FaithfulConst : TypeExpr → Prop
  | .named name => qualified (replaced map (.named name)) = .const (.named name)
  | .generic name items => FaithfulAll items ∧ view.constGeneric name (replacedAll map items) = true
  | .function closure params result =>
      replaced map (.function closure params result) = .function closure params result
  | .slice t => Faithful t ∧ view.constSlice (replaced map t) = true
  | .tuple _ | .pointer _ | .array _ _ => False
  | .const t => FaithfulConst t

def FaithfulAll : List TypeExpr → Prop
  | [] => True
  | t :: ts => Faithful t ∧ FaithfulAll ts

end

variable (occurs : ℕ → Bool)

/-- The types of a node are copied right, and it is no formal in an expression, unless the formal
stands for a type of its own name. -/
structure NodeFields.Faithful (f : NodeFields) : Prop where
  type : ∀ t ∈ f.type, Generics.Faithful view map t
  declType : ∀ t ∈ f.declType, Generics.Faithful view map t
  expression : ∀ t ∈ f.standsFor map occurs, ∃ name, spelledAs t = some (name, none) ∧
    f.name = some name ∧ f.text = some name

def Node.Faithful : Node → Prop
  | .null => True
  | .node f a b c body params args next =>
      f.Faithful view map occurs ∧ a.Faithful ∧ b.Faithful ∧ c.Faithful ∧ body.Faithful ∧
        params.Faithful ∧ args.Faithful ∧ next.Faithful

/-- A declaration whose instances are right. -/
def Node.FaithfulTemplate : Node → Prop
  | .null => False
  | .node f a b c body params args _ =>
      (∀ t ∈ f.declType, Generics.Faithful view map t) ∧
        (f.kind ≠ .class → ∀ t ∈ f.type, Generics.Faithful view map t) ∧
        a.Faithful view map occurs ∧ b.Faithful view map occurs ∧ c.Faithful view map occurs ∧
        body.Faithful view map occurs ∧
        (if f.kind = .class then args.Faithful view map occurs
          else params.Faithful view map occurs)

end Faithful

/-! ## Types -/

section Types

variable {view : TypeView} {map : Substitution}

theorem slice_eq_slice_iff {t u : TypeExpr} :
    view.slice t = .slice u ↔ t = u ∧ view.constSlice u = false := by
  rw [TypeView.slice]
  split
  · rename_i hconst
    constructor
    · rintro ⟨⟩
    · rintro ⟨rfl, hconst'⟩
      rw [hconst] at hconst'
      cases hconst'
  · rename_i hconst
    rw [TypeExpr.slice.injEq]
    constructor
    · rintro rfl
      exact ⟨rfl, by simpa using hconst⟩
    · exact And.left

theorem slice_eq_const_iff {t u : TypeExpr} :
    view.slice t = .const (.slice u) ↔ t = u ∧ view.constSlice u = true := by
  rw [TypeView.slice]
  split
  · rename_i hconst
    rw [TypeExpr.const.injEq, TypeExpr.slice.injEq]
    constructor
    · rintro rfl
      exact ⟨rfl, hconst⟩
    · exact And.left
  · rename_i hconst
    constructor
    · rintro ⟨⟩
    · rintro ⟨rfl, hconst'⟩
      exact absurd hconst' hconst

theorem qualified_qualified (t : TypeExpr) : qualified (qualified t) = qualified t := by
  cases t <;> rfl

mutual

/-- `subType` replaces the formals exactly where it can. -/
theorem subType_eq_iff : ∀ t : TypeExpr, subType view map t = replaced map t ↔ Faithful view map t
  | .named name => by
      rw [subType, Faithful, replaced]
      by_cases hname : view.named name = true
      · rw [if_pos hname]
        exact iff_of_true rfl (.inl hname)
      · rw [if_neg hname]
        exact ⟨fun h ↦ .inr h.symm, fun h ↦ (h.resolve_left hname).symm⟩
  | .generic name items => by
      rw [subType, Faithful, replaced, TypeExpr.generic.injEq, ← subTypes_eq_iff items]
      exact and_iff_right rfl
  | .function closure params result => by
      rw [subType, Faithful]
      exact eq_comm
  | .tuple items => by
      rw [subType, Faithful, replaced, TypeExpr.tuple.injEq, ← subTypes_eq_iff items]
  | .slice t => by
      rw [subType, Faithful, replaced, slice_eq_slice_iff, ← subType_eq_iff t]
  | .pointer t => by
      rw [subType, Faithful, replaced, TypeExpr.pointer.injEq, ← subType_eq_iff t]
  | .array t count => by
      rw [subType, Faithful, replaced, TypeExpr.array.injEq, ← subType_eq_iff t]
      exact and_iff_left rfl
  | .const t => by
      rw [subType, Faithful, replaced]
      exact subConst_eq_iff t

theorem subConst_eq_iff : ∀ t : TypeExpr,
    subConst view map t = qualified (replaced map t) ↔ FaithfulConst view map t
  | .named name => by
      rw [subConst, FaithfulConst]
      exact eq_comm
  | .generic name items => by
      have hqualified (items) : qualified (.generic name items) = .const (.generic name items) :=
        rfl
      rw [subConst, FaithfulConst, replaced, hqualified, ← subTypes_eq_iff items]
      split
      · rename_i hconst
        rw [TypeExpr.const.injEq, TypeExpr.generic.injEq]
        constructor
        · rintro ⟨-, hitems⟩
          exact ⟨hitems, hitems ▸ hconst⟩
        · rintro ⟨hitems, -⟩
          exact ⟨rfl, hitems⟩
      · rename_i hconst
        constructor
        · rintro ⟨⟩
        · rintro ⟨hitems, hconst'⟩
          rw [hitems] at hconst
          exact absurd hconst' hconst
  | .function closure params result => by
      rw [subConst, FaithfulConst]
      constructor
      · intro h
        exact (TypeExpr.const.inj h).symm
      · intro h
        rw [h]
        rfl
  | .tuple items => by
      rw [subConst, FaithfulConst, replaced]
      exact iff_of_false (by rintro ⟨⟩) id
  | .slice t => by
      rw [subConst, FaithfulConst, ← subType_eq_iff t]
      exact slice_eq_const_iff
  | .pointer t => by
      rw [subConst, FaithfulConst, replaced]
      exact iff_of_false (by rintro ⟨⟩) id
  | .array t count => by
      rw [subConst, FaithfulConst, replaced]
      exact iff_of_false (by rintro ⟨⟩) id
  | .const t => by
      rw [subConst, FaithfulConst, replaced, qualified_qualified]
      exact subConst_eq_iff t

theorem subTypes_eq_iff : ∀ ts : List TypeExpr,
    subTypes view map ts = replacedAll map ts ↔ FaithfulAll view map ts
  | [] => iff_of_true rfl trivial
  | t :: ts => by
      rw [subTypes, FaithfulAll, replacedAll, List.cons.injEq, subType_eq_iff t,
        subTypes_eq_iff ts]

end

/-- `subType` on a type that may be missing. -/
theorem map_subType_eq_iff (o : Option TypeExpr) :
    o.map (subType view map) = o.map (replaced map) ↔ ∀ t ∈ o, Faithful view map t := by
  cases o with
  | none => exact iff_of_true rfl (by rintro t ⟨⟩)
  | some t =>
      simp only [Option.map_some, Option.some.injEq, Option.mem_def, forall_eq']
      exact subType_eq_iff t

end Types

/-! ## Nodes -/

section Nodes

variable {view : TypeView} {map : Substitution} {fresh : ℕ → ℕ} {occurs : ℕ → Bool}

theorem declType_eq_none_of_standsFor {f : NodeFields} {t : TypeExpr}
    (h : f.standsFor map occurs = some t) : f.declType = none := by
  rw [NodeFields.standsFor] at h
  split at h
  · rename_i hid
    exact hid.2.1
  · cases h

/-- A node is copied right if its types are and it is no formal in an expression. -/
theorem NodeFields.replaces_clone_iff (f : NodeFields) :
    f.Replaces map occurs (f.clone view map fresh) ↔ f.Faithful view map occurs := by
  have htype : _ ↔ ∀ t ∈ f.type, Generics.Faithful view map t := map_subType_eq_iff f.type
  have hdecl : _ ↔ ∀ t ∈ f.declType, Generics.Faithful view map t :=
    map_subType_eq_iff f.declType
  cases hstands : f.standsFor map occurs with
  | none =>
      constructor
      · intro h
        have hexpression := h.expression
        rw [hstands] at hexpression
        refine ⟨htype.1 h.type, hdecl.1 hexpression.2.2, ?_⟩
        rw [hstands]
        rintro t ⟨⟩
      · intro h
        refine ⟨rfl, rfl, rfl, htype.2 h.type, ?_⟩
        rw [hstands]
        exact ⟨rfl, rfl, hdecl.2 h.declType⟩
  | some t =>
      have hnone := declType_eq_none_of_standsFor hstands
      have hclone : (f.clone view map fresh).declType = none := by
        rw [NodeFields.clone, hnone]
        rfl
      constructor
      · intro h
        have hexpression := h.expression
        rw [hstands] at hexpression
        obtain ⟨name, declType, hspelled, hname, htext, hdeclType⟩ := hexpression
        obtain rfl : declType = none := hdeclType.symm.trans hclone
        refine ⟨htype.1 h.type, ?_, ?_⟩
        · rw [hnone]
          rintro u ⟨⟩
        · rw [hstands]
          rintro u ⟨⟩
          exact ⟨name, hspelled, hname, htext⟩
      · intro h
        obtain ⟨name, hspelled, hname, htext⟩ := h.expression t hstands
        refine ⟨rfl, rfl, rfl, htype.2 h.type, ?_⟩
        rw [hstands]
        exact ⟨name, none, hspelled, hname, htext, hclone⟩

/-- A tree is copied right if each of its nodes is. -/
theorem Node.replaces_clone_iff (n : Node) :
    n.Replaces map occurs (n.clone view map fresh) ↔ n.Faithful view map occurs := by
  induction n with
  | null => exact Iff.rfl
  | node f a b c body params args next ha hb hc hbody hparams hargs hnext =>
      rw [Node.clone, Node.Replaces, Node.Faithful, f.replaces_clone_iff, ha, hb, hc, hbody,
        hparams, hargs, hnext]

end Nodes

/-! ## Instances -/

theorem pairs_eq {formals : List (List Char)} {actuals : List TypeExpr}
    (h : formals.length = actuals.length) (map : Substitution) :
    pairs formals actuals map = some ((formals.zip actuals).reverse ++ map) := by
  induction formals generalizing actuals map with
  | nil =>
      obtain rfl := List.length_eq_zero_iff.1 h.symm
      rfl
  | cons formal formals ih =>
      cases actuals with
      | nil => cases h
      | cons actual actuals =>
          rw [pairs, ih (Nat.succ.inj h), List.zip_cons_cons, List.reverse_cons,
            List.append_assoc]
          rfl

/-- The names of the formals of a generic declaration. -/
def Node.formals : Node → List (List Char)
  | .null => []
  | .node f _ _ _ _ params args _ => if f.kind = .class then params.names else args.names

/-- What stands for the formals of a generic declaration. -/
def Node.actualsFor (src : Node) (actuals : List TypeExpr) : Substitution :=
  (src.formals.zip actuals).reverse

section Instances

variable (view : TypeView) (fresh : ℕ → ℕ) (occurs : ℕ → Bool) {name : List Char}
  {actuals : List TypeExpr} (id : ℕ)

/-- The instance of a declaration. -/
theorem instantiate_eq {f : NodeFields} {a b c body params args next : Node} {map : Substitution}
    (hpairs : pairs (Node.node f a b c body params args next).formals actuals [] = some map) :
    instantiate view fresh name actuals id (.node f a b c body params args next) =
      .ok (.node { f.clone view map fresh with
          name := some (instanceName (f.name.getD []) id)
          type := if f.kind = .class then some (.generic name actuals)
            else f.type.map (subType view map) }
        (a.clone view map fresh) (b.clone view map fresh) (c.clone view map fresh)
        (body.clone view map fresh)
        (if f.kind = .class then .null else params.clone view map fresh)
        (if f.kind = .class then args.clone view map fresh else .null) .null) := by
  rw [Node.formals] at hpairs
  rw [instantiate, hpairs]
  dsimp only [Node.clone]
  by_cases hclass : f.kind = .class
  · simp only [hclass, if_true]
  · simp only [hclass, if_false]
    rfl

theorem exists_node_of_templateFor {program src : Node} (h : templateFor name program = some src) :
    ∃ f a b c body params args next, src = .node f a b c body params args next := by
  induction program with
  | null => cases h
  | node f a b c body params args next _ _ _ _ _ _ ih =>
      rw [templateFor] at h
      split at h
      · exact ⟨f, a, b, c, body, params, args, next, (Option.some.inj h).symm⟩
      · exact ih h

/-- `expand_generics` adds the instance that it should add exactly when `sub_type` and `clone`
reach every formal of the declaration. -/
theorem instance_iff {program src : Node} (hsrc : templateFor name program = some src)
    (hlength : src.formals.length = actuals.length) :
    ∃ dst, instantiate view fresh name actuals id src = .ok dst ∧
      (Node.Instance (src.actualsFor actuals) occurs (.generic name actuals) src dst ↔
        src.FaithfulTemplate view (src.actualsFor actuals) occurs) := by
  obtain ⟨f, a, b, c, body, params, args, next, rfl⟩ := exists_node_of_templateFor hsrc
  have hpairs := pairs_eq hlength []
  rw [List.append_nil] at hpairs
  refine ⟨_, instantiate_eq view fresh id hpairs, ?_⟩
  rw [Node.actualsFor]
  generalize ((Node.node f a b c body params args next).formals.zip actuals).reverse = map
  rw [Node.Instance, Node.FaithfulTemplate, a.replaces_clone_iff, b.replaces_clone_iff,
    c.replaces_clone_iff, body.replaces_clone_iff]
  by_cases hclass : f.kind = .class
  · simp only [hclass, if_true]
    rw [args.replaces_clone_iff, ← map_subType_eq_iff f.declType]
    constructor
    · rintro ⟨-, -, -, -, hdeclType, -, ha, hb, hc, hbody, -, hargs, -⟩
      exact ⟨hdeclType, fun h ↦ absurd rfl h, ha, hb, hc, hbody, hargs⟩
    · rintro ⟨hdeclType, -, ha, hb, hc, hbody, hargs⟩
      exact ⟨hclass, rfl, rfl, rfl, hdeclType, trivial, ha, hb, hc, hbody, trivial, hargs,
        trivial⟩
  · simp only [hclass, if_false]
    rw [params.replaces_clone_iff, ← map_subType_eq_iff f.declType, ← map_subType_eq_iff f.type]
    constructor
    · rintro ⟨-, -, -, -, hdeclType, htype, ha, hb, hc, hbody, hparams, -, -⟩
      exact ⟨hdeclType, fun _ ↦ htype, ha, hb, hc, hbody, hparams⟩
    · rintro ⟨hdeclType, htype, ha, hb, hc, hbody, hparams⟩
      exact ⟨rfl, rfl, rfl, rfl, hdeclType, htype hclass, ha, hb, hc, hbody, hparams, trivial,
        trivial⟩

end Instances

/-- `class Box<T> { ...; }` with one field. -/
def boxOf (field : TypeExpr) : Node :=
  let formal := .node ⟨.var, 1, 0, some ['T'], none, none, some (.named ['T']), none⟩
    .null .null .null .null .null .null .null
  let member := .node ⟨.var, 2, 0, some ['f'], none, none, none, some field⟩
    .null .null .null .null .null .null .null
  .node ⟨.class, 3, 0, some "Box".toList, none, none, some (.named "Box".toList), none⟩
    .null .null .null member formal .null .null

/-- A table with no types beside those of the declaration. -/
def plainView : TypeView := ⟨fun _ ↦ false, fun _ _ ↦ false, fun _ ↦ false⟩

/-- The instance of `class Box<T> { Slice<T>* f; }` for `int`. -/
theorem instance_iff_slice : ∃ dst,
    instantiate plainView (· + 10) "Box".toList [.named "int".toList] 7
        (boxOf (.pointer (.slice (.named ['T'])))) = .ok dst ∧
      Node.Instance [(['T'], .named "int".toList)] (fun _ ↦ false)
        (.generic "Box".toList [.named "int".toList])
        (boxOf (.pointer (.slice (.named ['T'])))) dst := by
  have hsrc : templateFor "Box".toList (boxOf (.pointer (.slice (.named ['T'])))) =
      some (boxOf (.pointer (.slice (.named ['T'])))) := rfl
  have hlength : (boxOf (.pointer (.slice (.named ['T'])))).formals.length =
      [TypeExpr.named "int".toList].length := rfl
  obtain ⟨dst, hdst, hiff⟩ := instance_iff plainView (· + 10) (fun _ ↦ false) 7 hsrc hlength
  have hfield : Faithful plainView
      ((boxOf (.pointer (.slice (.named ['T'])))).actualsFor [.named "int".toList])
      (.pointer (.slice (.named ['T']))) :=
    ⟨.inl (by decide), rfl⟩
  refine ⟨dst, hdst, hiff.2 ⟨?_, fun h ↦ absurd rfl h, trivial, trivial, trivial, ?_, trivial⟩⟩
  · rintro t ⟨⟩
  · refine ⟨⟨?_, ?_, ?_⟩, trivial, trivial, trivial, trivial, trivial, trivial, trivial⟩
    · rintro t ⟨⟩
    · rintro t ⟨⟩
      exact hfield
    · rintro t ⟨⟩

/-- The instance of `class Box<T> { func<T(T)> f; }` keeps `T` in the type of its field. -/
theorem not_forall_instance : ∃ dst,
    templateFor "Box".toList (boxOf (.function false [.named ['T']] (.named ['T']))) =
        some (boxOf (.function false [.named ['T']] (.named ['T']))) ∧
      instantiate plainView (· + 10) "Box".toList [.named "int".toList] 7
          (boxOf (.function false [.named ['T']] (.named ['T']))) = .ok dst ∧
        ¬ Node.Instance [(['T'], .named "int".toList)] (fun _ ↦ false)
          (.generic "Box".toList [.named "int".toList])
          (boxOf (.function false [.named ['T']] (.named ['T']))) dst := by
  refine ⟨_, rfl, rfl, ?_⟩
  rintro ⟨-, -, -, -, -, -, -, -, -, hbody, -⟩
  have hfield : some (TypeExpr.function false [.named ['T']] (.named ['T'])) =
      some (.function false [.named "int".toList] (.named "int".toList)) :=
    hbody.1.expression.2.2
  have hresult := (TypeExpr.function.inj (Option.some.inj hfield)).2.2
  exact absurd (TypeExpr.named.inj hresult) (by decide)

end TinyCPlus.Compiler.Generics
