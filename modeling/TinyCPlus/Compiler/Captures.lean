import Mathlib.Data.List.Forall2
import Mathlib.Logic.Function.Basic
import Mathlib.Tactic

/-!
# Captured variables (`check_expr`, `rebind_async`, `lambdas`)

The checker adds a captured variable to every lambda between its use and its owner.  The emitted
code fills an environment from the one of the enclosing lambda or from a variable of the
enclosing function, whose name is a field of the frame in an async function.
-/

namespace TinyCPlus.Compiler.Captures

/-! ## Variables and nodes -/

/-- `Symbol`: the node that declares the variable and the function it belongs to, if any. -/
structure Sym where
  id : ℕ
  name : String
  function : Option ℕ
deriving DecidableEq

/-- The C text of a variable.  Node numbers are unique, so that a text stands for one variable. -/
inductive Cname where
  /-- `tc_v_<id>_<name>` -/
  | plain (s : Sym)
  /-- `tc_async->tc_v_<id>_<name>` -/
  | frame (s : Sym)
  /-- `tc_env->capture_<id>` -/
  | capture (s : Sym)
deriving DecidableEq

def Cname.isCapture : Cname → Bool
  | capture _ => true
  | _ => false

/-- An identifier as it is parsed. -/
structure Name where
  id : ℕ
  name : String

/-- An identifier with its `sym` and `cname`. -/
structure Ref where
  sym : Sym
  cname : Cname

/-- The nodes of a function, as far as variables and lambdas go.  The list of a lambda is its
`args`, the captured variables; it is empty after parsing. -/
inductive Node (ν : Type) where
  | skip
  | var (v : ν) (init : Node ν)
  | id (v : ν)
  | assign (v : ν) (value : Node ν)
  | seq (a b : Node ν)
  | block (body : Node ν)
  | lambda (n : ℕ) (params : List ν) (args : List Sym) (body : Node ν)

/-- The numbers of the lambdas. -/
def Node.lambdas {ν : Type} : Node ν → List ℕ
  | skip => []
  | var _ init => init.lambdas
  | id _ => []
  | assign _ value => value.lambdas
  | seq a b => a.lambdas ++ b.lambdas
  | block body => body.lambdas
  | lambda n _ _ body => n :: body.lambdas

/-! ## The checker -/

/-- The lambdas around a node, the innermost first, with what they capture so far, and the
symbols in scope. -/
structure Checker where
  lambdas : List (ℕ × List Sym)
  scope : List Sym

/-- `current_fn`, the innermost lambda or else the function around all lambdas. -/
def currentFn (owner : Option ℕ) : List (ℕ × List Sym) → Option ℕ
  | [] => owner
  | (n, _) :: _ => some n

/-- Adds a variable to the lambdas between its use and its owner. -/
def capture (s : Sym) : List (ℕ × List Sym) → List (ℕ × List Sym)
  | [] => []
  | (n, args) :: lambdas =>
      if s.function = some n then (n, args) :: lambdas
      else (n, if s ∈ args then args else s :: args) :: capture s lambdas

/-- `N_ID` -/
def checkId (owner : Option ℕ) (v : Name) (S : Checker) : Option (Ref × Checker) := do
  let s ← S.scope.find? (·.name = v.name)
  if S.lambdas ≠ [] ∧ s.function ≠ none ∧ s.function ≠ currentFn owner S.lambdas then
    some (⟨s, .capture s⟩, { S with lambdas := capture s S.lambdas })
  else some (⟨s, .plain s⟩, S)

/-- `bind` -/
def bind (function : Option ℕ) (v : Name) : Ref :=
  let s : Sym := ⟨v.id, v.name, function⟩
  ⟨s, .plain s⟩

/-- `check_expr` and `check_stmt`. -/
def check (owner : Option ℕ) : Node Name → Checker → Option (Node Ref × Checker)
  | .skip, S => some (.skip, S)
  | .var v init, S => do
      let (init, S) ← check owner init S
      let r := bind (currentFn owner S.lambdas) v
      some (.var r init, { S with scope := r.sym :: S.scope })
  | .id v, S => do
      let (r, S) ← checkId owner v S
      some (.id r, S)
  | .assign v value, S => do
      let (r, S) ← checkId owner v S
      let (value, S) ← check owner value S
      some (.assign r value, S)
  | .seq a b, S => do
      let (a, S) ← check owner a S
      let (b, S) ← check owner b S
      some (.seq a b, S)
  | .block body, S => do
      let (body, S') ← check owner body S
      some (.block body, { S' with scope := S.scope })
  | .lambda n params _ body, S => do
      let params := params.map (bind (some n))
      let inner : Checker :=
        ⟨(n, []) :: S.lambdas, (params.map Ref.sym).reverse ++ S.scope⟩
      let (body, S') ← check owner body inner
      match S'.lambdas with
      | [] => none
      | (_, args) :: lambdas => some (.lambda n params args body, ⟨lambdas, S.scope⟩)

/-! ## The names in an async function -/

/-- A visit of `rebind_async` at a node with a symbol: the symbol object is shared, so that its new
name is the one of all its nodes. -/
def rebindRef (fn : ℕ) (r : Ref) (names : Sym → Cname) : Ref × (Sym → Cname) :=
  if r.sym.function = some fn then
    (⟨r.sym, if r.cname.isCapture then r.cname else .frame r.sym⟩,
      Function.update names r.sym (.frame r.sym))
  else (r, names)

def rebindRefs (fn : ℕ) : List Ref → (Sym → Cname) → List Ref × (Sym → Cname)
  | [], names => ([], names)
  | r :: refs, names =>
      let (r, names) := rebindRef fn r names
      let (refs, names) := rebindRefs fn refs names
      (r :: refs, names)

/-- `rebind_async`, which leaves out the captures of a lambda. -/
def rebindAsync (fn : ℕ) : Node Ref → (Sym → Cname) → Node Ref × (Sym → Cname)
  | .skip, names => (.skip, names)
  | .var r init, names =>
      let (r, names) := rebindRef fn r names
      let (init, names) := rebindAsync fn init names
      (.var r init, names)
  | .id r, names =>
      let (r, names) := rebindRef fn r names
      (.id r, names)
  | .assign r value, names =>
      let (r, names) := rebindRef fn r names
      let (value, names) := rebindAsync fn value names
      (.assign r value, names)
  | .seq a b, names =>
      let (a, names) := rebindAsync fn a names
      let (b, names) := rebindAsync fn b names
      (.seq a b, names)
  | .block body, names =>
      let (body, names) := rebindAsync fn body names
      (.block body, names)
  | .lambda n params args body, names =>
      let (body, names) := rebindAsync fn body names
      let (params, names) := rebindRefs fn params names
      (.lambda n params args body, names)

/-! ## The emitted code -/

/-- The accesses of a C function, and the environments it fills. -/
inductive Code where
  | skip
  | read (s : Sym) (c : Cname)
  | write (s : Sym) (c : Cname)
  | seq (a b : Code)
  | create (n : ℕ) (fields : List (Sym × Cname)) (body : Code)

/-- `expression` of `N_ID`. -/
def access (names : Sym → Cname) (r : Ref) : Cname :=
  if r.cname.isCapture then r.cname else names r.sym

/-- What a field of a new environment is filled from, in the lambda `fn` or in a function. -/
def captured (names : Sym → Cname) (fn : Option ℕ) (s : Sym) : Cname :=
  if fn ≠ none ∧ s.function ≠ fn then .capture s else names s

/-- `expression` and `statement` in the lambda `fn` or in a function, with the functions of the
lambdas (`lambdas`). -/
def emit (names : Sym → Cname) (fn : Option ℕ) : Node Ref → Code
  | .skip => .skip
  | .var r init => .seq (emit names fn init) (.write r.sym r.cname)
  | .id r => .read r.sym (access names r)
  | .assign r value => .seq (emit names fn value) (.write r.sym (access names r))
  | .seq a b => .seq (emit names fn a) (emit names fn b)
  | .block body => emit names fn body
  | .lambda n _ args body =>
      .create n (args.map fun s ↦ (s, captured names fn s)) (emit names (some n) body)

/-- A function of the program, or the initialiser of a global, which has no number. -/
structure Function where
  id : Option ℕ
  async : Bool
  params : List Name
  body : Node Name
  distinct : ∀ n ∈ id, n ∉ body.lambdas
  numbered : async → id ≠ none

namespace Function

variable (F : Function)

def parameters : List Ref := F.params.map (bind F.id)

/-- `check_function` -/
def checked : Option (Node Ref) :=
  (check F.id F.body ⟨[], (F.parameters.map Ref.sym).reverse⟩).map Prod.fst

/-- The nodes and names at the time of emission. -/
def rebound (body : Node Ref) : Node Ref × (Sym → Cname) :=
  match F.async, F.id with
  | true, some fn => rebindAsync fn body (rebindRefs fn F.parameters .plain).2
  | _, _ => (body, .plain)

def code : Option Code :=
  F.checked.map fun body ↦ emit (F.rebound body).2 none (F.rebound body).1

end Function

/-! ## What is captured -/

/-- The variables of the nodes with a symbol. -/
def Node.occurs : Node Ref → List Sym
  | skip => []
  | var r init => r.sym :: init.occurs
  | id r => [r.sym]
  | assign r value => r.sym :: value.occurs
  | seq a b => a.occurs ++ b.occurs
  | block body => body.occurs
  | lambda _ params _ body => params.map Ref.sym ++ body.occurs

/-- The captures of the innermost lambda. -/
def topArgs : List (ℕ × List Sym) → List Sym
  | [] => []
  | (_, args) :: _ => args

/-- A use in the function `fn`, which captures `args`. -/
def Ref.Resolved (fn : Option ℕ) (args : List Sym) (r : Ref) : Prop :=
  (r.cname.isCapture = false ∧ (r.sym.function = none ∨ r.sym.function = fn)) ∨
  (r.cname = .capture r.sym ∧ r.sym.function ≠ none ∧ r.sym.function ≠ fn ∧ r.sym ∈ args)

/-- What a lambda in the function `fn`, which captures `args`, may capture itself. -/
def Captured (fn : Option ℕ) (args : List Sym) (n : ℕ) (s : Sym) : Prop :=
  s.function ≠ none ∧ s.function ≠ some n ∧ (s.function = fn ∨ s ∈ args)

/-- Nodes of the function `fn`, which captures `args`, where the declarations have the names
`own`. -/
def Node.Resolved (own : Sym → Cname) (fn : Option ℕ) (args : List Sym) : Node Ref → Prop
  | skip => True
  | var r init =>
      (r.sym.function = fn ∧ r.cname = own r.sym) ∧ init.Resolved own fn args
  | id r => r.Resolved fn args
  | assign r value => r.Resolved fn args ∧ value.Resolved own fn args
  | seq a b => a.Resolved own fn args ∧ b.Resolved own fn args
  | block body => body.Resolved own fn args
  | lambda n _ inner body =>
      (∀ s ∈ inner, Captured fn args n s ∧ s ∈ body.occurs) ∧
        body.Resolved own (some n) inner

theorem Ref.Resolved.mono {fn : Option ℕ} {args args' : List Sym} {r : Ref}
    (h : r.Resolved fn args) (hsub : args ⊆ args') : r.Resolved fn args' := by
  rcases h with h | ⟨hc, h0, hfn, hmem⟩
  · exact Or.inl h
  · exact Or.inr ⟨hc, h0, hfn, hsub hmem⟩

theorem Captured.mono {fn : Option ℕ} {args args' : List Sym} {n : ℕ} {s : Sym}
    (h : Captured fn args n s) (hsub : args ⊆ args') : Captured fn args' n s :=
  ⟨h.1, h.2.1, h.2.2.imp_right fun hs ↦ hsub hs⟩

theorem Node.Resolved.mono {own : Sym → Cname} {fn : Option ℕ} {args args' : List Sym}
    {node : Node Ref} (h : node.Resolved own fn args) (hsub : args ⊆ args') :
    node.Resolved own fn args' := by
  induction node with
  | skip => trivial
  | var r init ih => exact ⟨h.1, ih h.2⟩
  | id r => exact Ref.Resolved.mono h hsub
  | assign r value ih => exact ⟨h.1.mono hsub, ih h.2⟩
  | seq a b iha ihb => exact ⟨iha h.1, ihb h.2⟩
  | block body ih => exact ih h
  | lambda n params inner body ih =>
    exact ⟨fun s hs ↦ ⟨(h.1 s hs).1.mono hsub, (h.1 s hs).2⟩, h.2⟩

/-! ### The lambdas around a node -/

/-- Each lambda captures what the lambdas inside it need. -/
def Chain (owner : Option ℕ) : List (ℕ × List Sym) → Prop
  | [] => True
  | (n, args) :: lambdas =>
      (∀ s ∈ args, Captured (currentFn owner lambdas) (topArgs lambdas) n s) ∧ Chain owner lambdas

/-- Lambdas with more captures, all of them in `occurs`. -/
def Grown (occurs : List Sym) (old new : List (ℕ × List Sym)) : Prop :=
  List.Forall₂ (fun x y ↦ x.1 = y.1 ∧ x.2 ⊆ y.2 ∧ ∀ s ∈ y.2, s ∈ x.2 ∨ s ∈ occurs) old new

/-- The variable belongs to no function, to one of the lambdas or to the function around them. -/
def Visible (owner : Option ℕ) (lambdas : List (ℕ × List Sym)) (s : Sym) : Prop :=
  s.function = none ∨ s.function = owner ∨ ∃ n ∈ lambdas.map Prod.fst, s.function = some n

structure Checker.Valid (owner : Option ℕ) (S : Checker) : Prop where
  chain : Chain owner S.lambdas
  visible : ∀ s ∈ S.scope, Visible owner S.lambdas s

namespace Grown

variable {occurs : List Sym} {old new : List (ℕ × List Sym)}

theorem refl (occurs : List Sym) (old : List (ℕ × List Sym)) : Grown occurs old old :=
  List.forall₂_same.mpr fun _ _ ↦ ⟨rfl, List.Subset.refl _, fun _ hs ↦ Or.inl hs⟩

theorem trans {occurs' : List Sym} {next : List (ℕ × List Sym)} (h : Grown occurs old new)
    (h' : Grown occurs' new next) : Grown (occurs ++ occurs') old next := by
  induction h generalizing next with
  | nil => cases h'; exact List.Forall₂.nil
  | cons hxy _ ih =>
    cases h' with
    | cons hyz h' =>
      refine List.Forall₂.cons ⟨hxy.1.trans hyz.1, fun s hs ↦ hyz.2.1 (hxy.2.1 hs), ?_⟩ (ih h')
      intro s hs
      rcases hyz.2.2 s hs with hy | ho
      · exact (hxy.2.2 s hy).imp_right (List.mem_append_left _)
      · exact Or.inr (List.mem_append_right _ ho)

theorem mono {occurs' : List Sym} (h : Grown occurs old new) (hsub : occurs ⊆ occurs') :
    Grown occurs' old new :=
  List.Forall₂.imp (fun _ _ hxy ↦
    ⟨hxy.1, hxy.2.1, fun s hs ↦ (hxy.2.2 s hs).imp_right fun ho ↦ hsub ho⟩) h

theorem currentFn_eq (h : Grown occurs old new) (owner : Option ℕ) :
    currentFn owner new = currentFn owner old := by
  cases h with
  | nil => rfl
  | cons hxy _ => exact congrArg some hxy.1.symm

theorem topArgs_subset (h : Grown occurs old new) : topArgs old ⊆ topArgs new := by
  cases h with
  | nil => exact List.Subset.refl _
  | cons hxy _ => exact hxy.2.1

theorem map_fst (h : Grown occurs old new) : new.map Prod.fst = old.map Prod.fst := by
  induction h with
  | nil => rfl
  | cons hxy _ ih => rw [List.map_cons, List.map_cons, ih, hxy.1]

theorem visible (h : Grown occurs old new) {owner : Option ℕ} {s : Sym}
    (hs : Visible owner old s) : Visible owner new s := by
  rw [Visible, h.map_fst]
  exact hs

end Grown

theorem capture_grown (s : Sym) (lambdas : List (ℕ × List Sym)) :
    Grown [s] lambdas (capture s lambdas) := by
  induction lambdas with
  | nil => exact List.Forall₂.nil
  | cons x lambdas ih =>
    obtain ⟨n, args⟩ := x
    rw [capture]
    split_ifs with hfn hmem
    · exact Grown.refl _ _
    · exact List.Forall₂.cons ⟨rfl, List.Subset.refl _, fun _ ht ↦ Or.inl ht⟩ ih
    · refine List.Forall₂.cons ⟨rfl, List.subset_cons_self _ _, fun t ht ↦ ?_⟩ ih
      rcases List.mem_cons.mp ht with rfl | ht
      · exact Or.inr (List.mem_singleton_self _)
      · exact Or.inl ht

theorem mem_topArgs_capture {owner : Option ℕ} {s : Sym} {lambdas : List (ℕ × List Sym)}
    (hne : lambdas ≠ []) (hfn : s.function ≠ currentFn owner lambdas) :
    s ∈ topArgs (capture s lambdas) := by
  cases lambdas with
  | nil => exact absurd rfl hne
  | cons x lambdas =>
    obtain ⟨n, args⟩ := x
    rw [capture, if_neg (show s.function ≠ some n from hfn)]
    show s ∈ if s ∈ args then args else s :: args
    split_ifs with hmem
    · exact hmem
    · exact List.mem_cons_self

theorem capture_chain {owner : Option ℕ} {s : Sym} {lambdas : List (ℕ × List Sym)}
    (h : Chain owner lambdas) (h0 : s.function ≠ none) (hs : Visible owner lambdas s) :
    Chain owner (capture s lambdas) := by
  induction lambdas with
  | nil => exact h
  | cons x lambdas ih =>
    obtain ⟨n, args⟩ := x
    by_cases hfn : s.function = some n
    · rw [capture, if_pos hfn]
      exact h
    have hs' : Visible owner lambdas s := by
      obtain hs | hs | ⟨m, hm, hs⟩ := hs
      · exact Or.inl hs
      · exact Or.inr (Or.inl hs)
      · rcases List.mem_cons.mp hm with rfl | hm
        · exact absurd hs hfn
        · exact Or.inr (Or.inr ⟨m, hm, hs⟩)
    have hgrown := capture_grown s lambdas
    have hold : ∀ t ∈ args, Captured (currentFn owner (capture s lambdas))
        (topArgs (capture s lambdas)) n t := by
      intro t ht
      rw [hgrown.currentFn_eq]
      exact (h.1 t ht).mono hgrown.topArgs_subset
    have hnew : Captured (currentFn owner (capture s lambdas))
        (topArgs (capture s lambdas)) n s := by
      refine ⟨h0, hfn, ?_⟩
      rw [hgrown.currentFn_eq]
      by_cases hc : s.function = currentFn owner lambdas
      · exact Or.inl hc
      · refine Or.inr (mem_topArgs_capture ?_ hc)
        rintro rfl
        obtain hs' | hs' | ⟨m, hm, -⟩ := hs'
        · exact h0 hs'
        · exact hc hs'
        · cases hm
    rw [capture, if_neg hfn]
    refine ⟨fun t ht ↦ ?_, ih h.2 hs'⟩
    split_ifs at ht with hmem
    · exact hold t ht
    · rcases List.mem_cons.mp ht with rfl | ht
      · exact hnew
      · exact hold t ht

theorem visible_of_currentFn {owner : Option ℕ} {lambdas : List (ℕ × List Sym)} {s : Sym}
    (h : s.function = currentFn owner lambdas) : Visible owner lambdas s := by
  cases lambdas with
  | nil => exact Or.inr (Or.inl h)
  | cons x lambdas => exact Or.inr (Or.inr ⟨x.1, List.mem_cons_self, h⟩)

theorem Visible.cons {owner : Option ℕ} {lambdas : List (ℕ × List Sym)} {s : Sym}
    (h : Visible owner lambdas s) (x : ℕ × List Sym) : Visible owner (x :: lambdas) s := by
  obtain h | h | ⟨m, hm, h⟩ := h
  · exact Or.inl h
  · exact Or.inr (Or.inl h)
  · exact Or.inr (Or.inr ⟨m, List.mem_cons_of_mem _ hm, h⟩)

/-! ### The check of a function -/

/-- What the checker returns for a node. -/
structure Checked (owner : Option ℕ) (node : Node Name) (S : Checker) (node' : Node Ref)
    (S' : Checker) : Prop where
  valid : S'.Valid owner
  grown : Grown node'.occurs S.lambdas S'.lambdas
  resolved : node'.Resolved .plain (currentFn owner S.lambdas) (topArgs S'.lambdas)
  numbers : node'.lambdas = node.lambdas

theorem Checker.Valid.with_scope {owner : Option ℕ} {S : Checker} (h : S.Valid owner)
    {scope : List Sym} (hs : ∀ s ∈ scope, Visible owner S.lambdas s) :
    Checker.Valid owner { S with scope := scope } :=
  ⟨h.chain, hs⟩

theorem checkId_spec {owner : Option ℕ} {v : Name} {S S' : Checker} {r : Ref}
    (h : checkId owner v S = some (r, S')) (hS : S.Valid owner) :
    S'.Valid owner ∧ Grown [r.sym] S.lambdas S'.lambdas ∧
      r.Resolved (currentFn owner S.lambdas) (topArgs S'.lambdas) := by
  simp only [checkId, Option.bind_eq_bind, Option.bind_eq_some_iff] at h
  obtain ⟨s, hfind, h⟩ := h
  have hvis := hS.visible s (List.mem_of_find?_eq_some hfind)
  split_ifs at h with hcap
  · cases h
    obtain ⟨hne, h0, hfn⟩ := hcap
    have hgrown := capture_grown s S.lambdas
    exact ⟨⟨capture_chain hS.chain h0 hvis, fun t ht ↦ hgrown.visible (hS.visible t ht)⟩, hgrown,
      Or.inr ⟨rfl, h0, hfn, mem_topArgs_capture hne hfn⟩⟩
  · cases h
    refine ⟨hS, Grown.refl _ _, Or.inl ⟨rfl, ?_⟩⟩
    by_cases h0 : s.function = none
    · exact Or.inl h0
    by_cases hfn : s.function = currentFn owner S.lambdas
    · exact Or.inr hfn
    have hnil : S.lambdas = [] := by tauto
    obtain hvis | hvis | ⟨m, hm, -⟩ := hvis
    · exact absurd hvis h0
    · rw [hnil]
      exact Or.inr hvis
    · rw [hnil] at hm
      cases hm

theorem check_spec {owner : Option ℕ} {node : Node Name} {S S' : Checker} {node' : Node Ref}
    (h : check owner node S = some (node', S')) (hS : S.Valid owner) :
    Checked owner node S node' S' := by
  induction node generalizing S S' node' with
  | skip =>
    cases h
    exact ⟨hS, Grown.refl _ _, trivial, rfl⟩
  | var v init ih =>
    simp only [check, Option.bind_eq_bind, Option.bind_eq_some_iff, Prod.exists] at h
    obtain ⟨init', S₁, hinit, h⟩ := h
    cases h
    obtain ⟨hv, hg, hr, hn⟩ := ih hinit hS
    refine ⟨hv.with_scope ?_, hg.mono (List.subset_cons_self _ _), ⟨⟨?_, rfl⟩, hr⟩, hn⟩
    · intro s hs
      rcases List.mem_cons.mp hs with rfl | hs
      · exact visible_of_currentFn rfl
      · exact hv.visible s hs
    · exact hg.currentFn_eq owner
  | id v =>
    simp only [check, Option.bind_eq_bind, Option.bind_eq_some_iff, Prod.exists] at h
    obtain ⟨r, S₁, hid, h⟩ := h
    cases h
    obtain ⟨hv, hg, hr⟩ := checkId_spec hid hS
    exact ⟨hv, hg, hr, rfl⟩
  | assign v value ih =>
    simp only [check, Option.bind_eq_bind, Option.bind_eq_some_iff, Prod.exists] at h
    obtain ⟨r, S₁, hid, value', S₂, hvalue, h⟩ := h
    cases h
    obtain ⟨hv, hg, hr⟩ := checkId_spec hid hS
    obtain ⟨hv₂, hg₂, hr₂, hn⟩ := ih hvalue hv
    rw [hg.currentFn_eq] at hr₂
    exact ⟨hv₂, hg.trans hg₂, ⟨hr.mono hg₂.topArgs_subset, hr₂⟩, hn⟩
  | seq a b iha ihb =>
    simp only [check, Option.bind_eq_bind, Option.bind_eq_some_iff, Prod.exists] at h
    obtain ⟨a', S₁, ha, b', S₂, hb, h⟩ := h
    cases h
    obtain ⟨hv, hg, hr, hn⟩ := iha ha hS
    obtain ⟨hv₂, hg₂, hr₂, hn₂⟩ := ihb hb hv
    rw [hg.currentFn_eq] at hr₂
    exact ⟨hv₂, hg.trans hg₂, ⟨hr.mono hg₂.topArgs_subset, hr₂⟩, congrArg₂ (· ++ ·) hn hn₂⟩
  | block body ih =>
    simp only [check, Option.bind_eq_bind, Option.bind_eq_some_iff, Prod.exists] at h
    obtain ⟨body', S₁, hbody, h⟩ := h
    cases h
    obtain ⟨hv, hg, hr, hn⟩ := ih hbody hS
    exact ⟨hv.with_scope fun s hs ↦ hg.visible (hS.visible s hs), hg, hr, hn⟩
  | lambda n params args body ih =>
    simp only [check, Option.bind_eq_bind, Option.bind_eq_some_iff, Prod.exists] at h
    obtain ⟨body', S₁, hbody, h⟩ := h
    have hinner : Checker.Valid owner
        ⟨(n, []) :: S.lambdas, ((params.map (bind (some n))).map Ref.sym).reverse ++ S.scope⟩ := by
      refine ⟨⟨fun s hs ↦ absurd hs List.not_mem_nil, hS.chain⟩, fun s hs ↦ ?_⟩
      rcases List.mem_append.mp hs with hs | hs
      · simp only [List.map_map, List.mem_reverse, List.mem_map] at hs
        obtain ⟨v, -, rfl⟩ := hs
        exact visible_of_currentFn rfl
      · exact (hS.visible s hs).cons _
    obtain ⟨hv, hg, hr, hn⟩ := ih hbody hinner
    obtain ⟨⟨m, args'⟩, lambdas, ⟨hm, -, hargs⟩, hrest, hS₁⟩ := List.forall₂_cons_left_iff.mp hg
    obtain rfl : n = m := hm
    have hchain := hv.chain
    rw [hS₁] at h hchain hr
    cases h
    have hgrown : Grown body'.occurs S.lambdas lambdas := hrest
    refine ⟨⟨hchain.2, fun s hs ↦ hgrown.visible (hS.visible s hs)⟩,
      hgrown.mono (List.subset_append_right _ _), ⟨fun s hs ↦ ⟨?_, ?_⟩, hr⟩,
      congrArg (n :: ·) hn⟩
    · rw [← hgrown.currentFn_eq]
      exact hchain.1 s hs
    · exact (hargs s hs).resolve_left List.not_mem_nil

/-! ## The renamed nodes -/

/-- The name of a variable of its own function, where `async` is the async function, if any. -/
def ownName (async : Option ℕ) (s : Sym) : Cname :=
  if s.function ≠ none ∧ s.function = async then .frame s else .plain s

theorem rebindRef_sym (fn : ℕ) (r : Ref) (names : Sym → Cname) :
    (rebindRef fn r names).1.sym = r.sym := by
  unfold rebindRef
  split_ifs <;> rfl

theorem rebindRefs_sym (fn : ℕ) (refs : List Ref) (names : Sym → Cname) :
    (rebindRefs fn refs names).1.map Ref.sym = refs.map Ref.sym := by
  induction refs generalizing names with
  | nil => rfl
  | cons r refs ih =>
    show (rebindRef fn r names).1.sym :: _ = _
    rw [rebindRef_sym, ih, List.map_cons]

theorem rebindAsync_occurs (fn : ℕ) (node : Node Ref) (names : Sym → Cname) :
    (rebindAsync fn node names).1.occurs = node.occurs := by
  induction node generalizing names with
  | skip => rfl
  | var r init ih => exact congrArg₂ List.cons (rebindRef_sym fn r names) (ih _)
  | id r => exact congrArg (fun s ↦ [s]) (rebindRef_sym fn r names)
  | assign r value ih => exact congrArg₂ List.cons (rebindRef_sym fn r names) (ih _)
  | seq a b iha ihb => exact congrArg₂ (· ++ ·) (iha _) (ihb _)
  | block body ih => exact ih _
  | lambda n params args body ih => exact congrArg₂ (· ++ ·) (rebindRefs_sym fn params _) (ih _)

theorem rebindAsync_lambdas (fn : ℕ) (node : Node Ref) (names : Sym → Cname) :
    (rebindAsync fn node names).1.lambdas = node.lambdas := by
  induction node generalizing names with
  | skip => rfl
  | var r init ih => exact ih _
  | id r => rfl
  | assign r value ih => exact ih _
  | seq a b iha ihb => exact congrArg₂ (· ++ ·) (iha _) (ihb _)
  | block body ih => exact ih _
  | lambda n params args body ih => exact congrArg (n :: ·) (ih _)

theorem rebindRef_resolved (fn : ℕ) {f : Option ℕ} {args : List Sym} {r : Ref}
    (h : r.Resolved f args) (names : Sym → Cname) : (rebindRef fn r names).1.Resolved f args := by
  unfold rebindRef
  split_ifs with hfn hc
  · exact h
  · rcases h with ⟨-, h⟩ | ⟨h, -⟩
    · exact Or.inl ⟨rfl, h⟩
    · exact absurd (congrArg Cname.isCapture h) hc
  · exact h

theorem rebindRef_own (fn : ℕ) {r : Ref} (h : r.cname = .plain r.sym) (names : Sym → Cname) :
    (rebindRef fn r names).1.cname = ownName (some fn) (rebindRef fn r names).1.sym := by
  unfold rebindRef
  split_ifs with hfn hc
  · rw [h] at hc
    cases hc
  · simp [ownName, hfn]
  · simp [ownName, hfn, h]

theorem rebindAsync_resolved (fn : ℕ) {f : Option ℕ} {args : List Sym} {node : Node Ref}
    (h : node.Resolved .plain f args) (names : Sym → Cname) :
    (rebindAsync fn node names).1.Resolved (ownName (some fn)) f args := by
  induction node generalizing f args names with
  | skip => trivial
  | var r init ih =>
    have hsym := congrArg Sym.function (rebindRef_sym fn r names)
    exact ⟨⟨hsym.trans h.1.1, rebindRef_own fn h.1.2 names⟩, ih h.2 _⟩
  | id r => exact rebindRef_resolved fn h names
  | assign r value ih => exact ⟨rebindRef_resolved fn h.1 names, ih h.2 _⟩
  | seq a b iha ihb => exact ⟨iha h.1 _, ihb h.2 _⟩
  | block body ih => exact ih h _
  | lambda n params inner body ih =>
    refine ⟨fun s hs ↦ ⟨(h.1 s hs).1, ?_⟩, ih h.2 _⟩
    rw [rebindAsync_occurs]
    exact (h.1 s hs).2

/-- The names after the visit of nodes with the symbols `occurs`. -/
def Renamed (fn : ℕ) (occurs : List Sym) (names names' : Sym → Cname) : Prop :=
  ∀ s, names' s = if s.function = some fn ∧ s ∈ occurs then .frame s else names s

theorem Renamed.refl (fn : ℕ) (names : Sym → Cname) : Renamed fn [] names names := fun s ↦ by
  simp

theorem Renamed.trans {fn : ℕ} {occurs occurs' : List Sym} {names names' names'' : Sym → Cname}
    (h : Renamed fn occurs names names') (h' : Renamed fn occurs' names' names'') :
    Renamed fn (occurs ++ occurs') names names'' := by
  intro s
  rw [h' s, h s]
  by_cases hfn : s.function = some fn
  · by_cases hs : s ∈ occurs <;> by_cases hs' : s ∈ occurs' <;> simp [hfn, hs, hs']
  · simp [hfn]

theorem rebindRef_renamed (fn : ℕ) (r : Ref) (names : Sym → Cname) :
    Renamed fn [r.sym] names (rebindRef fn r names).2 := by
  intro s
  by_cases hr : r.sym.function = some fn
  · rw [rebindRef, if_pos hr]
    by_cases hs : s = r.sym
    · simp [hs, hr]
    · simp [hs]
  · rw [rebindRef, if_neg hr, if_neg]
    rintro ⟨hfn, hs⟩
    exact hr (List.mem_singleton.mp hs ▸ hfn)

theorem rebindRefs_renamed (fn : ℕ) (refs : List Ref) (names : Sym → Cname) :
    Renamed fn (refs.map Ref.sym) names (rebindRefs fn refs names).2 := by
  induction refs generalizing names with
  | nil => exact Renamed.refl fn names
  | cons r refs ih => exact (rebindRef_renamed fn r names).trans (ih _)

theorem rebindAsync_renamed (fn : ℕ) (node : Node Ref) (names : Sym → Cname) :
    Renamed fn node.occurs names (rebindAsync fn node names).2 := by
  induction node generalizing names with
  | skip => exact Renamed.refl fn names
  | var r init ih => exact (rebindRef_renamed fn r names).trans (ih _)
  | id r => exact rebindRef_renamed fn r names
  | assign r value ih => exact (rebindRef_renamed fn r names).trans (ih _)
  | seq a b iha ihb => exact (iha _).trans (ihb _)
  | block body ih => exact ih _
  | lambda n params args body ih =>
    intro s
    refine (((ih names).trans (rebindRefs_renamed fn params _)) s).trans ?_
    simp only [Node.occurs, List.mem_append, or_comm]

/-! ## The emitted accesses -/

/-- The place of a variable in the function `fn` with the environment fields `args`. -/
def Right (fn : Option ℕ) (async : Bool) (args : List Sym) (s : Sym) (c : Cname) : Prop :=
  if s.function = none then c = .plain s
  else if s.function = fn then c = if async then .frame s else .plain s
  else c = .capture s ∧ s ∈ args

/-- Every access of the code is to the place of its variable. -/
def Code.Placed (fn : Option ℕ) (async : Bool) (args : List Sym) : Code → Prop
  | skip => True
  | read s c => Right fn async args s c
  | write s c => Right fn async args s c
  | seq a b => a.Placed fn async args ∧ b.Placed fn async args
  | create n fields body =>
      (∀ f ∈ fields, Captured fn args n f.1 ∧ Right fn async args f.1 f.2) ∧
        body.Placed (some n) false (fields.map Prod.fst)

/-- The variables of the function `fn` have the names `own`. -/
structure Owns (own : Sym → Cname) (fn : Option ℕ) (async : Bool) : Prop where
  global : ∀ s, s.function = none → own s = .plain s
  local_ : ∀ s, s.function = fn → s.function ≠ none →
    own s = if async then .frame s else .plain s

theorem Owns.right {own : Sym → Cname} {fn : Option ℕ} {async : Bool} (h : Owns own fn async)
    (args : List Sym) {s : Sym} (hs : s.function = none ∨ s.function = fn) :
    Right fn async args s (own s) := by
  unfold Right
  split_ifs with h0 hfn hasync
  · exact h.global s h0
  · rw [h.local_ s hfn h0, if_pos hasync]
  · rw [h.local_ s hfn h0, if_neg hasync]
  · exact absurd hs (not_or.mpr ⟨h0, hfn⟩)

theorem Right.of_capture {fn : Option ℕ} {async : Bool} {args : List Sym} {s : Sym}
    (h0 : s.function ≠ none) (hfn : s.function ≠ fn) (hs : s ∈ args) :
    Right fn async args s (.capture s) := by
  rw [Right, if_neg h0, if_neg hfn]
  exact ⟨rfl, hs⟩

theorem Ref.Resolved.right {own names : Sym → Cname} {fn : Option ℕ} {async : Bool}
    {args : List Sym} {r : Ref} (h : r.Resolved fn args) (ho : Owns own fn async)
    (hnames : names r.sym = own r.sym) : Right fn async args r.sym (access names r) := by
  rcases h with ⟨hc, hr⟩ | ⟨hc, h0, hfn, hmem⟩
  · rw [access, hc, if_neg Bool.false_ne_true, hnames]
    exact ho.right args hr
  · rw [access, hc]
    exact Right.of_capture h0 hfn hmem

theorem captured_right {own names : Sym → Cname} {fn lam : Option ℕ} {async : Bool}
    {args : List Sym} {n : ℕ} {s : Sym} (h : Captured fn args n s) (ho : Owns own fn async)
    (hnames : names s = own s) (hlam : lam = fn ∧ fn ≠ none ∨ lam = none ∧ args = []) :
    Right fn async args s (captured names lam s) := by
  obtain ⟨h0, -, hs⟩ := h
  rcases hlam with ⟨rfl, hne⟩ | ⟨rfl, rfl⟩
  · unfold captured
    split_ifs with hc
    · exact Right.of_capture h0 hc.2 (hs.resolve_left hc.2)
    · rw [hnames]
      exact ho.right args (Or.inr (by tauto))
  · rw [captured, if_neg (by simp), hnames]
    exact ho.right [] (Or.inr (hs.resolve_right List.not_mem_nil))

theorem emit_placed {own names : Sym → Cname} {fn lam : Option ℕ} {async : Bool}
    {args : List Sym} {node : Node Ref} (h : node.Resolved own fn args)
    (hnames : ∀ s ∈ node.occurs, names s = own s) (ho : Owns own fn async)
    (hinner : ∀ n ∈ node.lambdas, Owns own (some n) false)
    (hlam : lam = fn ∧ fn ≠ none ∨ lam = none ∧ args = []) :
    (emit names lam node).Placed fn async args := by
  induction node generalizing fn lam async args with
  | skip => trivial
  | var r init ih =>
    refine ⟨ih h.2 (fun s hs ↦ hnames s (List.mem_cons_of_mem _ hs)) ho hinner hlam, ?_⟩
    show Right fn async args r.sym r.cname
    rw [h.1.2]
    exact ho.right args (Or.inr h.1.1)
  | id r => exact Ref.Resolved.right h ho (hnames _ List.mem_cons_self)
  | assign r value ih =>
    exact ⟨ih h.2 (fun s hs ↦ hnames s (List.mem_cons_of_mem _ hs)) ho hinner hlam,
      h.1.right ho (hnames _ List.mem_cons_self)⟩
  | seq a b iha ihb =>
    exact ⟨iha h.1 (fun s hs ↦ hnames s (List.mem_append_left _ hs)) ho
        (fun n hn ↦ hinner n (List.mem_append_left _ hn)) hlam,
      ihb h.2 (fun s hs ↦ hnames s (List.mem_append_right _ hs)) ho
        (fun n hn ↦ hinner n (List.mem_append_right _ hn)) hlam⟩
  | block body ih => exact ih h hnames ho hinner hlam
  | lambda n params inner body ih =>
    have hbody : ∀ s ∈ body.occurs, names s = own s := fun s hs ↦
      hnames s (List.mem_append_right _ hs)
    constructor
    · intro f hf
      obtain ⟨s, hs, rfl⟩ := List.mem_map.mp hf
      exact ⟨(h.1 s hs).1, captured_right (h.1 s hs).1 ho (hbody s (h.1 s hs).2) hlam⟩
    · have hmap : (inner.map fun s ↦ (s, captured names lam s)).map Prod.fst = inner := by
        rw [List.map_map]
        exact List.map_id _
      rw [hmap]
      exact ih h.2 hbody (hinner n List.mem_cons_self)
        (fun m hm ↦ hinner m (List.mem_cons_of_mem _ hm)) (Or.inl ⟨rfl, Option.some_ne_none n⟩)

theorem owns_ownName {async fn : Option ℕ} {b : Bool}
    (h : fn ≠ none → (b = true ↔ fn = async)) : Owns (ownName async) fn b := by
  constructor
  · intro s hs
    simp [ownName, hs]
  · intro s hs h0
    have hb := h (hs ▸ h0)
    cases b with
    | true => exact if_pos ⟨h0, hs.trans (hb.mp rfl)⟩
    | false =>
      have hne : fn ≠ async := fun e ↦ Bool.false_ne_true (hb.mpr e)
      simp [ownName, hs, hne]

namespace Function

variable (F : Function)

/-- The async function, if it is one. -/
def asyncFn : Option ℕ := if F.async then F.id else none

theorem ownName_none : ownName none = Cname.plain := by
  funext s
  exact if_neg fun h ↦ h.1 h.2

theorem rebound_of_async {body : Node Ref} {fn : ℕ} (ha : F.async = true) (hid : F.id = some fn) :
    F.rebound body = rebindAsync fn body (rebindRefs fn F.parameters .plain).2 := by
  unfold rebound
  rw [ha, hid]

theorem rebound_of_sync {body : Node Ref} (ha : F.async = false) :
    F.rebound body = (body, .plain) := by
  unfold rebound
  rw [ha]

/-- The nodes at the time of emission: the declarations and names are those of the function. -/
structure Rebound (body : Node Ref) : Prop where
  resolved : (F.rebound body).1.Resolved (ownName F.asyncFn) F.id []
  lambdas : (F.rebound body).1.lambdas = body.lambdas
  names : ∀ s ∈ (F.rebound body).1.occurs, (F.rebound body).2 s = ownName F.asyncFn s

theorem rebound_spec {body : Node Ref} (h : body.Resolved .plain F.id []) : F.Rebound body := by
  cases ha : F.async with
  | false =>
    have hfn : F.asyncFn = none := by simp [asyncFn, ha]
    constructor
    · rw [hfn, ownName_none, F.rebound_of_sync ha]
      exact h
    · rw [F.rebound_of_sync ha]
    · intro s _
      rw [hfn, ownName_none, F.rebound_of_sync ha]
  | true =>
    obtain ⟨fn, hid⟩ := Option.ne_none_iff_exists'.mp (F.numbered ha)
    have hfn : F.asyncFn = some fn := by simp [asyncFn, ha, hid]
    have hparams := rebindRefs_renamed fn F.parameters .plain
    constructor
    · rw [hfn, F.rebound_of_async ha hid]
      exact rebindAsync_resolved fn h _
    · rw [F.rebound_of_async ha hid, rebindAsync_lambdas]
    · intro s hs
      rw [F.rebound_of_async ha hid] at hs ⊢
      rw [rebindAsync_occurs] at hs
      rw [hfn, rebindAsync_renamed fn body _ s, hparams s, ownName]
      by_cases hs' : s.function = some fn
      · simp [hs', hs]
      · simp [hs']

/-- The emitted code accesses every variable at its place. -/
theorem placed {code : Code} (h : F.code = some code) : code.Placed F.id F.async [] := by
  obtain ⟨body, hbody, rfl⟩ := Option.map_eq_some_iff.mp h
  obtain ⟨⟨body, S⟩, hcheck, rfl⟩ := Option.map_eq_some_iff.mp hbody
  have hvalid : Checker.Valid F.id ⟨[], (F.parameters.map Ref.sym).reverse⟩ := by
    refine ⟨trivial, fun s hs ↦ ?_⟩
    simp only [parameters, List.map_map, List.mem_reverse, List.mem_map] at hs
    obtain ⟨v, -, rfl⟩ := hs
    exact visible_of_currentFn rfl
  obtain ⟨-, hgrown, hresolved, hnumbers⟩ := check_spec hcheck hvalid
  have hnil : S.lambdas = [] := List.forall₂_nil_left_iff.mp hgrown
  rw [hnil] at hresolved
  obtain ⟨hr, hlambdas, hnames⟩ := F.rebound_spec hresolved
  refine emit_placed hr hnames (owns_ownName fun hne ↦ ?_) ?_ (Or.inr ⟨rfl, rfl⟩)
  · unfold asyncFn
    split_ifs with ha
    · exact iff_of_true ha rfl
    · exact iff_of_false ha hne
  · intro n hn
    rw [hlambdas, hnumbers] at hn
    refine owns_ownName fun _ ↦ iff_of_false Bool.false_ne_true fun e ↦ ?_
    unfold asyncFn at e
    split_ifs at e
    exact F.distinct n e.symm hn

end Function

end TinyCPlus.Compiler.Captures
