import TinyCPlus.Compiler.Statement
import TinyCPlus.Library.Budget

/-!
# Lowering (`expression`, `statement`, `scoped`, `cleanup_emit`, `generate_c`)

The recursion that writes the bodies of a program.  A scope keeps a list of its deferred
expressions and of its variables with destructors, and every exit lowers them again; an
`await` is such an exit inside an expression.  The text of a line is its format with the
values in it, without the names of types.
-/

namespace TinyCPlus.Compiler.Lowering

open TinyCPlus.Library Budgeted

/-! ## Programs -/

/-- An expression, by what is lowered for it.  The operands of `op` get temporaries (`value`) in
their order, but the first is lowered in place if `place`: the operand of `&`, `++` and `--`, the
object of a method call that is no pointer, `owned`, `closure_destroy` and the call of a
`spawn` of an async function.  `lines` follow the operands.  The body of a lambda is no part of
the expression. -/
inductive Expr where
  | literal
  | name (id : ℕ)
  | op (format : String) (lines : List String) (place void : Bool) (operands : List Expr)
  /-- The object of a computed property gets a temporary if it is a pointer. -/
  | member (pointer : Bool) (a : Expr)
  | tuple (args : List Expr)
  /-- `&&` and `||` -/
  | logic (or : Bool) (a b : Expr)
  | await (void : Bool) (a : Expr)

namespace Expr

/-- The type is `void`. -/
def void : Expr → Bool
  | op _ _ _ void _ | await void _ => void
  | _ => false

/-- The literals and `null`. -/
def isLiteral : Expr → Bool
  | literal => true
  | _ => false

/-- The future of the operand of `await` is retained. -/
def retained : Expr → Bool
  | name _ | member _ _ => true
  | _ => false

mutual

/-- Lowering gets to an `await`. -/
def hasAwait : Expr → Bool
  | literal | name _ => false
  | op _ _ _ _ operands => anyAwait operands
  | member _ a => a.hasAwait
  | tuple args => anyAwait args
  | logic _ a b => a.hasAwait || b.hasAwait
  | await _ _ => true

def anyAwait : List Expr → Bool
  | [] => false
  | a :: args => a.hasAwait || anyAwait args

end

mutual

/-- `returned_local` -/
def returnedLocal (id : ℕ) : Expr → Bool
  | name id' => id' == id
  | tuple args => anyReturned id args
  | _ => false

def anyReturned (id : ℕ) : List Expr → Bool
  | [] => false
  | a :: args => a.returnedLocal id || anyReturned id args

end

end Expr

/-! ## State -/

/-- The text of a value in C. -/
inductive Value where
  | num (n : ℕ)
  | temp (n : ℕ)
  | text (format : String) (values : List Value)

structure Line where
  format : String
  values : List Value

/-- What an exit of a scope runs. -/
inductive Cleanup where
  | defer (a : Expr)
  | drop (l : Local)

structure Loop where
  id : ℕ
  stop : List Cleanup

/-- `CG` -/
structure State where
  asynchronous : Bool
  cleanup : List Cleanup
  loops : List Loop
  returning : Option Expr
  serial : ℕ
  states : ℕ
  out : List Line

inductive Stop where
  /-- `tc_error` -/
  | diagnostic
  /-- There is no loop for a `break` or `continue`. -/
  | fault
deriving DecidableEq, Repr

abbrev Lower := Budgeted State Stop

/-- What is not decided by the shape of a program: the lines shorter than 4096 characters, and
the expressions of an enum type. -/
structure Texts where
  fits : Line → Bool
  isEnum : Expr → Bool

variable (T : Texts)

/-- `line` -/
def line (format : String) (values : List Value) : Lower Unit := do
  if T.fits ⟨format, values⟩ then modify fun g ↦ { g with out := g.out ++ [⟨format, values⟩] }
  else throw .diagnostic

/-- Lines with the same values. -/
def lines (values : List Value) : List String → Lower Unit
  | [] => pure ()
  | format :: formats => do
      line T format values
      lines values formats

/-- `temp` -/
def temp : Lower Value := do
  modify fun g ↦ { g with serial := g.serial + 1 }
  pure (.temp (← get).serial)

/-- `define_value` -/
def defineValue (v initial : Value) : Lower Unit := line T "%s = %s;" [v, initial]

def when (b : Bool) (x : Lower Unit) : Lower Unit := if b then x else pure ()

/-- `await` outside an asynchronous lowering context. -/
def requireAsync (g : State) : Lower Unit :=
  if g.asynchronous then pure () else throw .diagnostic

/-- The temporary for the result of an `await`. -/
def awaited (void : Bool) : Lower Value :=
  if void then pure (.text "NULL" [])
  else do
    let v ← temp
    defineValue T v (.text "\x7b0\x7d" [])
    pure v

/-- A value that is a temporary unless the type is `void`. -/
def saved (void : Bool) (s : Value) : Lower Value :=
  if void then do
    line T "%s;" [s]
    pure (.text "0" [])
  else do
    let v ← temp
    defineValue T v s
    pure v

/-- `async_finish` -/
def asyncFinish (result : Option Value) : Lower Unit :=
  lines T result.toList ["tc_future_complete(tc_async->future, %s, %s);",
    "tc_future_release(tc_async->future);", "tc_task_end();", "free(tc_async);", "return;"]

/-! ## Expressions -/

mutual

/-- `expression` -/
def expression : ℕ → Expr → Lower Value
  | 0, _ => exhausted
  | _ + 1, .literal => pure (.text "literal" [])
  | _ + 1, .name id => pure (.text "name" [.num id])
  | n + 1, .op format more place _ args => do
      let values ← operands n place args
      lines T values more
      pure (.text format values)
  | n + 1, .member pointer a => do
      let a ← if pointer then value n a else expression n a
      pure (.text "(%s).%s" [a])
  | n + 1, .tuple args => do
      let values ← operands n false args
      pure (.text "(%s)\x7b%s\x7d" values)
  | n + 1, .logic or a b => do
      let a ← value n a
      let v ← temp
      defineValue T v (.text "!!(%s)" [a])
      line T (if or then "if (!%s) \x7b" else "if (%s) \x7b") [v]
      let b ← value n b
      lines T [v, b] ["%s = !!(%s);", "\x7d"]
      pure v
  | n + 1, .await void a => do
      modify fun g ↦ { g with states := g.states + 1 }
      let g ← get
      requireAsync g
      let v ← value n a
      line T "tc_async->waiting = %s.handle;" [v]
      when a.retained (line T "tc_future_retain(tc_async->waiting);" [])
      lines T [.num g.states] ["tc_async->state = %d;",
        "if (!tc_future_ready(tc_async->waiting)) \x7b",
        "tc_assert(tc_future_then(tc_async->waiting, tc_scheduler_pool(), %s_step, tc_async) == 0);",
        "return;", "\x7d", "tc_state_%d:;"]
      let result ← awaited T void
      lines T [result] ["tc_async->error = tc_future_get(tc_async->waiting, %s);",
        "tc_future_release(tc_async->waiting); tc_async->waiting = NULL;",
        "if (tc_async->error) \x7b"]
      cleanupEmit n []
      asyncFinish T none
      line T "\x7d" []
      pure (if void then .text "(void)0" [] else result)

/-- `value` -/
def value : ℕ → Expr → Lower Value
  | 0, _ => exhausted
  | n + 1, a => do
      let s ← expression n a
      saved T a.void s

/-- The operands in their order, the first one in place if `place`. -/
def operands : ℕ → Bool → List Expr → Lower (List Value)
  | 0, _, _ => exhausted
  | _ + 1, _, [] => pure []
  | n + 1, place, a :: args => do
      let v ← if place then expression n a else value n a
      let values ← operands n false args
      pure (v :: values)

/-- `cleanup_emit` -/
def cleanupEmit : ℕ → List Cleanup → Lower Unit
  | 0, _ => exhausted
  | n + 1, stop => do
      let g ← get
      emitAll n (g.cleanup.take (g.cleanup.length - stop.length))

/-- The loop of `cleanup_emit`. -/
def emitAll : ℕ → List Cleanup → Lower Unit
  | 0, _ => exhausted
  | _ + 1, [] => pure ()
  | n + 1, .defer a :: rest => do
      let s ← expression n a
      line T "%s;" [s]
      emitAll n rest
  | n + 1, .drop l :: rest => do
      let g ← get
      when (!g.returning.any (Expr.returnedLocal l.id)) (line T "%s(&%s);" [.num l.id])
      emitAll n rest

end

/-! ## Statements -/

/-- `cleanup_add` for the variables with destructors. -/
def addDrops (locals : List Local) : Lower Unit :=
  modify fun g ↦ { g with
    cleanup := ((locals.filter Local.destructor).map Cleanup.drop).reverse ++ g.cleanup }

/-- The variables get their values. -/
def defineAll (a : Value) : List Local → Lower Unit
  | [] => pure ()
  | l :: locals => do
      defineValue T (.num l.id) a
      defineAll a locals

/-- The value of a variable; several variables share a tuple. -/
def initial (n : ℕ) (locals : List Local) : Option Expr → Lower Value
  | none => pure (.text "\x7b0\x7d" [])
  | some a => if locals.length = 1 then expression T n a else value T n a

/-- The value of a `return`. -/
def result (n : ℕ) : Option Expr → Lower (Option Value)
  | none => pure none
  | some a => do
      let v ← value T n a
      pure (some v)

/-- The end of a `return`. -/
def finish (result : Option Value) : Lower Unit := do
  let g ← get
  if g.asynchronous then asyncFinish T result else line T "return %s;" result.toList

/-- An expression that may be left out, with its line. -/
def optional (n : ℕ) (f : ℕ → Expr → Lower Value) (format : String) : Option Expr → Lower Unit
  | none => pure ()
  | some a => do
      let s ← f n a
      line T format [s]

/-- The sequence of a range and its index. -/
def startRange (n : ℕ) : Option Expr → Lower Unit
  | none => pure ()
  | some a => do
      let s ← expression T n a
      let v ← temp
      defineValue T v s
      defineValue T (.text "index" []) (.text "0" [])

/-- The labels of a case. -/
def labels (n : ℕ) : List Expr → Lower (List Value)
  | [] => pure []
  | v :: vs => do
      let label ← expression T n v
      let rest ← labels n vs
      pure (label :: rest)

/-- The tests of the cases in their order. -/
def tests (n : ℕ) : List (Item Expr) → Lower (List Value)
  | [] => pure []
  | (none, _) :: items => tests n items
  | (some vs, _) :: items => do
      let test ← labels T n vs
      let rest ← tests n items
      pure (.text "||" test :: rest)

mutual

/-- `statement` -/
def statement : ℕ → Stmt Expr → Lower Unit
  | 0, _ => exhausted
  | n + 1, .block body => do
      line T "#line %d %s" []
      scope n (.block body)
  | n + 1, .var locals a => do
      line T "#line %d %s" []
      let a ← initial T n locals a
      defineAll T a locals
      addDrops locals
  | n + 1, .expr a => do
      line T "#line %d %s" []
      optional T n (expression T) "%s;" a
  | n + 1, .ret a => do
      line T "#line %d %s" []
      let v ← result T n a
      modify fun g ↦ { g with returning := a }
      cleanupEmit T n []
      modify fun g ↦ { g with returning := none }
      finish T v
  | n + 1, .ite a body b => do
      line T "#line %d %s" []
      let a ← value T n a
      line T "if (%s)" [a]
      scope n body
      match b with
      | none => pure ()
      | some b => do
          line T "else" []
          scope n b
  | n + 1, .switch a items => do
      line T "#line %d %s" []
      let subject ← value T n a
      let all ← tests T n items
      when (T.isEnum a && !hasDefault items && !items.isEmpty)
        (line T "if (!(%s)) tc_panic(\"switch value matches no enum case\");" (subject :: all))
      cases n subject items
      fallback n items
  | n + 1, .while a body => do
      line T "#line %d %s" []
      loop n none none (some a) none body
  | n + 1, .for a b c body => do
      line T "#line %d %s" []
      loop n a none b c body
  | n + 1, .range a body => do
      line T "#line %d %s" []
      loop n none (some a) none none body
  | n + 1, .break => do
      line T "#line %d %s" []
      leave n "goto tc_break_%d;"
  | n + 1, .continue => do
      line T "#line %d %s" []
      leave n "goto tc_continue_%d;"
  | _ + 1, .defer a => do
      line T "#line %d %s" []
      modify fun g ↦ { g with cleanup := .defer a :: g.cleanup }
  | n + 1, .delete a => do
      line T "#line %d %s" []
      let a ← value T n a
      line T "free(%s);" [a]

/-- `scoped` -/
def scope : ℕ → Stmt Expr → Lower Unit
  | 0, _ => exhausted
  | n + 1, s => do
      let g ← get
      line T "\x7b" []
      inside n s
      cleanupEmit T n g.cleanup
      modify fun g' ↦ { g' with cleanup := g.cleanup }
      line T "\x7d" []

/-- The statements of a scope or a function. -/
def inside : ℕ → Stmt Expr → Lower Unit
  | 0, _ => exhausted
  | n + 1, .block body => statements n body
  | n + 1, s => statement n s

def statements : ℕ → List (Stmt Expr) → Lower Unit
  | 0, _ => exhausted
  | _ + 1, [] => pure ()
  | n + 1, s :: body => do
      statement n s
      statements n body

/-- The cases with labels, in a chain. -/
def cases : ℕ → Value → List (Item Expr) → Lower Unit
  | 0, _, _ => exhausted
  | _ + 1, _, [] => pure ()
  | n + 1, subject, (none, _) :: items => cases n subject items
  | n + 1, subject, (some _, body) :: items => do
      line T "else if (%s)" [subject]
      scope n (.block body)
      cases n subject items

/-- The last default. -/
def fallback : ℕ → List (Item Expr) → Lower Unit
  | 0, _ => exhausted
  | _ + 1, [] => pure ()
  | n + 1, (some _, _) :: items => fallback n items
  | n + 1, (none, body) :: items =>
      if hasDefault items then fallback n items
      else do
        line T "else" []
        scope n (.block body)

/-- The three loops: `init` and `step` of `for`, the sequence of a range, and the condition. -/
def loop : ℕ → Option (Stmt Expr) → Option Expr → Option Expr → Option Expr → Stmt Expr →
    Lower Unit
  | 0, _, _, _, _, _ => exhausted
  | n + 1, init, sequence, condition, step, body => do
      let g ← get
      line T "\x7b" []
      initLoop n init
      startRange T n sequence
      modify fun g ↦ { g with
        serial := g.serial + 1
        loops := ⟨g.serial + 1, g.cleanup⟩ :: g.loops }
      line T "for (;;) \x7b" []
      optional T n (value T) "if (!(%s)) break;" condition
      when sequence.isSome (lines T [] ["if (%s >= %s) break;", "%s = %s;"])
      scope n body
      line T "tc_continue_%d:;" []
      optional T n (expression T) "%s;" step
      lines T [] ["\x7d", "tc_break_%d:;"]
      modify fun g' ↦ { g' with loops := g.loops }
      cleanupEmit T n g.cleanup
      modify fun g' ↦ { g' with cleanup := g.cleanup }
      line T "\x7d" []

def initLoop : ℕ → Option (Stmt Expr) → Lower Unit
  | 0, _ => exhausted
  | _ + 1, none => pure ()
  | n + 1, some init => statement n init

/-- `break` and `continue` -/
def leave : ℕ → String → Lower Unit
  | 0, _ => exhausted
  | n + 1, format => do
      let g ← get
      match g.loops with
      | [] => throw .fault
      | l :: _ => do
          cleanupEmit T n l.stop
          line T format [.num l.id]

end

/-! ## Programs -/

/-- The functions and methods, and the computed properties. -/
inductive Part where
  | function (async : Bool) (body : Stmt Expr)
  | getter (a : Expr)

/-- What of a program has code, in the order of `generate_c`. -/
structure Program where
  globals : List (Local × Option Expr)
  lambdas : List (Expr ⊕ Stmt Expr)
  parts : List Part

/-- A global initializer must be a literal. -/
def requireLiteral (a : Option Expr) : Lower Unit :=
  if a.all Expr.isLiteral then pure () else throw .diagnostic

def globals (n : ℕ) : List (Local × Option Expr) → Lower Unit
  | [] => pure ()
  | (l, a) :: ls => do
      requireLiteral a
      statement T n (.var [l] a)
      globals n ls

def lambda (n : ℕ) : Expr ⊕ Stmt Expr → Lower Unit
  | .inl a => do
      let v ← expression T n a
      line T "return %s;" [v]
  | .inr body => scope T n body

/-- `lambdas` -/
def lambdas (n : ℕ) : List (Expr ⊕ Stmt Expr) → Lower Unit
  | [] => pure ()
  | body :: bodies => do
      lambda T n body
      lambdas n bodies

/-- The body of `function` and of `async_function`. -/
def functionBody (n : ℕ) (body : Stmt Expr) : Lower Unit := do
  inside T n body
  cleanupEmit T n []

/-- The state `step` of `async_function`. -/
def State.step : State := ⟨true, [], [], none, 0, 0, []⟩

def part (n : ℕ) : Part → Lower Unit
  | .function false body => do
      modify fun g ↦ { g with cleanup := [] }
      line T "\x7b" []
      functionBody T n body
      line T "\x7d" []
      modify fun g ↦ { g with cleanup := [] }
  | .function true body => do
      let g ← get
      modify fun _ ↦ State.step
      line T "tc_state_0:;" []
      functionBody T n body
      asyncFinish T none
      modify fun step ↦ { g with out := g.out ++ step.out }
  | .getter a => do
      let v ← expression T n a
      line T "return %s;" [v]

def parts (n : ℕ) : List Part → Lower Unit
  | [] => pure ()
  | p :: ps => do
      part T n p
      parts n ps

/-- `generate_c` -/
def generate (n : ℕ) (p : Program) : Lower Unit := do
  globals T n p.globals
  lambdas T n p.lambdas
  parts T n p.parts

def State.start : State := ⟨false, [], [], none, 0, 0, []⟩

/-- `generate_c` ends with C text or a diagnostic, with every recursion that is deep enough. -/
def Generates (p : Program) : Prop :=
  ∃ n r, r ≠ .error .fault ∧ ∀ m, n ≤ m → Gives (generate T m p) State.start r

/-! ## Acceptance -/

/-- `await` is only valid inside an async function; `K` has the other checks of `check_expr`. -/
def checks (K : Checks Expr) (async : Bool) : Checks Expr :=
  { K with accepts := fun a ↦ K.accepts a && (async || !a.hasAwait) }

/-- `check_function`, and the check of a computed property. -/
def Part.accepted (K : Checks Expr) : Part → Bool
  | .function async body => checkStmt (checks K async) 0 0 body
  | .getter a => (checks K false).accepts a

/-- `analyze` -/
def Program.accepted (K : Checks Expr) (p : Program) : Bool :=
  (p.globals.all fun l ↦ checkStmt (checks K false) 0 0 (.var [l.1] l.2)) &&
    (p.lambdas.all fun body ↦
      match body with
      | .inl a => (checks K false).accepts a
      | .inr body => checkStmt (checks K false) 0 0 body) &&
    p.parts.all (Part.accepted K)

end TinyCPlus.Compiler.Lowering
