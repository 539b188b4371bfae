import Mathlib

/-!
# Statements

The statements of a body over the expressions `E`, and the part of the
semantic checks (`check_stmt`, `check_switch`, `returns`, `check_function`)
that does not look into expressions.
-/

namespace TinyCPlus.Compiler

/-- A variable of a body; its class may have a destructor. -/
structure Local where
  id : ℕ
  destructor : Bool
deriving DecidableEq, Repr

/-- A case of a switch has labels, or is the default. -/
inductive Stmt (E : Type) where
  | block (body : List (Stmt E))
  | var (locals : List Local) (a : Option E)
  | expr (a : Option E)
  | ret (a : Option E)
  | ite (a : E) (body : Stmt E) (b : Option (Stmt E))
  | switch (a : E) (items : List (Option (List E) × List (Stmt E)))
  | while (a : E) (body : Stmt E)
  | for (a : Option (Stmt E)) (b c : Option E) (body : Stmt E)
  | range (a : E) (body : Stmt E)
  | break
  | continue
  | defer (a : E)
  | delete (a : E)

/-- The labels of a case and its block. -/
abbrev Item (E : Type) : Type := Option (List E) × List (Stmt E)

/-- Functions, methods and async functions have a name; `void` says that there
is no result. -/
inductive Callable (E : Type) where
  | function (name : String) (void : Bool) (body : Stmt E)
  | lambda (void : Bool) (body : E ⊕ Stmt E)

/-- What `check_expr` finds out about the expressions of a program. -/
structure Checks (E : Type) where
  /-- There is no error. -/
  accepts : E → Bool
  /-- The values of the type, if it is an enum. -/
  enumValues : E → Option (List String)
  /-- The value that a label of an enum is. -/
  enumValue : E → String

section Check

variable {E : Type} (K : Checks E)

def hasDefault (items : List (Item E)) : Bool := items.any fun item ↦ item.1.isNone

/-- The type of the subject is an enum. -/
def Checks.isEnum (a : E) : Bool := (K.enumValues a).isSome

/-- Every value of an enum has a case. -/
def Checks.exhaustive (a : E) (items : List (Item E)) : Bool :=
  match K.enumValues a with
  | some values =>
      hasDefault items || values.all fun value ↦
        items.any fun item ↦ (item.1.getD []).any fun v ↦ K.enumValue v == value
  | none => true

mutual

/-- `check_stmt`, with `loop_depth` and `switch_loop`. -/
def checkStmt (loopDepth switchLoop : ℕ) : Stmt E → Bool
  | .block body => checkBlock loopDepth switchLoop body
  | .var _ a | .expr a | .ret a => a.all K.accepts
  | .ite a body b =>
      K.accepts a && checkStmt loopDepth switchLoop body &&
        (match b with
        | some b => checkStmt loopDepth switchLoop b
        | none => true)
  | .switch a items =>
      K.accepts a && (items.all fun item ↦ (item.1.getD []).all K.accepts) &&
        K.exhaustive a items && checkItems loopDepth items
  | .while a body | .range a body => K.accepts a && checkStmt (loopDepth + 1) switchLoop body
  | .for a b c body =>
      (match a with
        | some a => checkStmt loopDepth switchLoop a
        | none => true) &&
        b.all K.accepts && c.all K.accepts && checkStmt (loopDepth + 1) switchLoop body
  | .break => !(switchLoop != 0 && loopDepth == switchLoop - 1) && loopDepth != 0
  | .continue => loopDepth != 0
  | .defer a | .delete a => K.accepts a

def checkBlock (loopDepth switchLoop : ℕ) : List (Stmt E) → Bool
  | [] => true
  | s :: body => checkStmt loopDepth switchLoop s && checkBlock loopDepth switchLoop body

def checkItems (loopDepth : ℕ) : List (Item E) → Bool
  | [] => true
  | (_, body) :: items => checkBlock loopDepth (loopDepth + 1) body && checkItems loopDepth items

end

mutual

/-- `returns` -/
def returns : Stmt E → Bool
  | .ret _ => true
  | .block body => returnsBlock body
  | .ite _ body b =>
      returns body &&
        (match b with
        | some b => returns b
        | none => false)
  | .switch a items => (hasDefault items || K.isEnum a) && returnsItems items
  | .var _ _ | .expr _ | .while _ _ | .for _ _ _ _ | .range _ _ | .break | .continue | .defer _
  | .delete _ => false

def returnsBlock : List (Stmt E) → Bool
  | [] => false
  | s :: body => returns s || returnsBlock body

def returnsItems : List (Item E) → Bool
  | [] => true
  | (_, body) :: items => returnsBlock body && returnsItems items

end

/-- `check_function`, and the case `N_LAMBDA` of `check_expr`. -/
def checkCallable : Callable E → Bool
  | .function name void body =>
      checkStmt K 0 0 body && (void || returns K body || name == "main")
  | .lambda _ (.inl a) => K.accepts a
  | .lambda _ (.inr body) => checkStmt K 0 0 body

/-- `analyze`: every body is checked. -/
def analyze (program : List (Callable E)) : Bool := program.all (checkCallable K)

end Check

/-! ## Executions -/

/-- How a statement ends. -/
inductive Outcome where
  | normal | brk | cont | ret
  /-- A panic, or the error exit of an `await`. -/
  | stop
deriving DecidableEq, Repr

section Exec

variable {E : Type} (K : Checks E)

/-- A switch on an enum without a default is guarded if it has a case. -/
def Checks.guarded (a : E) (items : List (Item E)) : Bool :=
  K.isEnum a && !hasDefault items && !items.isEmpty

/-- What is executed: a statement, the statements of a block, or the turns of a
loop, which may have a condition. -/
inductive Code (E : Type) where
  | stmt (s : Stmt E)
  | block (body : List (Stmt E))
  | loop (condition : Bool) (body : Stmt E)

/-- The executions, for any values of the conditions and the subjects of switches. -/
inductive Exec : Code E → Outcome → Prop where
  | nil : Exec (.block []) .normal
  | next {s : Stmt E} {body : List (Stmt E)} {o : Outcome} (hs : Exec (.stmt s) .normal)
      (h : Exec (.block body) o) : Exec (.block (s :: body)) o
  | leave {s : Stmt E} {body : List (Stmt E)} {o : Outcome} (hs : Exec (.stmt s) o)
      (ho : o ≠ .normal) : Exec (.block (s :: body)) o
  | block {body : List (Stmt E)} {o : Outcome} (h : Exec (.block body) o) :
      Exec (.stmt (.block body)) o
  | var (locals : List Local) (a : Option E) : Exec (.stmt (.var locals a)) .normal
  | expr (a : Option E) : Exec (.stmt (.expr a)) .normal
  | ret (a : Option E) : Exec (.stmt (.ret a)) .ret
  | iteTrue {a : E} {body : Stmt E} {b : Option (Stmt E)} {o : Outcome}
      (h : Exec (.stmt body) o) : Exec (.stmt (.ite a body b)) o
  | iteFalse {a : E} {body b : Stmt E} {o : Outcome} (h : Exec (.stmt b) o) :
      Exec (.stmt (.ite a body (some b))) o
  | iteNone {a : E} {body : Stmt E} : Exec (.stmt (.ite a body none)) .normal
  | item {a : E} {items : List (Item E)} {item : Item E} {o : Outcome} (hitem : item ∈ items)
      (h : Exec (.block item.2) o) : Exec (.stmt (.switch a items)) o
  | noItem {a : E} {items : List (Item E)} (hdefault : hasDefault items = false)
      (hguard : K.guarded a items = false) : Exec (.stmt (.switch a items)) .normal
  | guard {a : E} {items : List (Item E)} (hguard : K.guarded a items = true) :
      Exec (.stmt (.switch a items)) .stop
  | while {a : E} {body : Stmt E} {o : Outcome} (h : Exec (.loop true body) o) :
      Exec (.stmt (.while a body)) o
  | range {a : E} {body : Stmt E} {o : Outcome} (h : Exec (.loop true body) o) :
      Exec (.stmt (.range a body)) o
  | for {b c : Option E} {body : Stmt E} {o : Outcome} (h : Exec (.loop b.isSome body) o) :
      Exec (.stmt (.for none b c body)) o
  | forInit {a : Stmt E} {b c : Option E} {body : Stmt E} {o : Outcome}
      (ha : Exec (.stmt a) .normal) (h : Exec (.loop b.isSome body) o) :
      Exec (.stmt (.for (some a) b c body)) o
  | forLeave {a : Stmt E} {b c : Option E} {body : Stmt E} {o : Outcome} (ha : Exec (.stmt a) o)
      (ho : o ≠ .normal) : Exec (.stmt (.for (some a) b c body)) o
  | done {body : Stmt E} : Exec (.loop true body) .normal
  | turn {condition : Bool} {body : Stmt E} {o o' : Outcome} (hbody : Exec (.stmt body) o)
      (ho : o = .normal ∨ o = .cont) (h : Exec (.loop condition body) o') :
      Exec (.loop condition body) o'
  | loopBreak {condition : Bool} {body : Stmt E} (hbody : Exec (.stmt body) .brk) :
      Exec (.loop condition body) .normal
  | loopLeave {condition : Bool} {body : Stmt E} {o : Outcome} (hbody : Exec (.stmt body) o)
      (ho : o = .ret ∨ o = .stop) : Exec (.loop condition body) o
  | break : Exec (.stmt .break) .brk
  | continue : Exec (.stmt .continue) .cont
  | defer (a : E) : Exec (.stmt (.defer a)) .normal
  | delete (a : E) : Exec (.stmt (.delete a)) .normal
  /-- An expression may panic. -/
  | panic (s : Stmt E) : Exec (.stmt s) .stop

/-- An execution reaches the end of the body. -/
def FallsOff : Callable E → Prop
  | .function _ _ body => Exec K (.stmt body) .normal
  | .lambda _ (.inl _) => False
  | .lambda _ (.inr body) => Exec K (.stmt body) .normal

/-- There is a result, and the name is not `main`. -/
def Callable.needsReturn : Callable E → Bool
  | .function name void _ => !void && name != "main"
  | .lambda void _ => !void

end Exec

end TinyCPlus.Compiler
