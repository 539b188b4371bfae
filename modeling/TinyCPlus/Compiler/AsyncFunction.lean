import TinyCPlus.Library.Resumable
import TinyCPlus.Compiler.Unwinding

/-!
# Lowering of async functions

`async_function` makes a step function that `switch` enters at the state that it was left in.
Everything lives in the frame, so that the lines are steps on one state.  Expressions are
lowered to lines and the text of a C expression; what the texts are made of is left open.  The
generator does not end for a defer that awaits; it has fuel for the clean-up code inside of
clean-up code.
-/

namespace TinyCPlus.Compiler.Async

open Library.Resumable
open Unwinding (Cleanup registers)

/-- Checked expressions.  The operands of everything that is no `&&`, `||` or `await` are
lowered in order, with `value` if the flag is set and with `expression` if not. -/
inductive Expr (A : Type) where
  | leaf (a : A)
  | apply (f : A) (void : Bool) (operands : List (Bool × Expr A))
  | logic (or : Bool) (a b : Expr A)
  | await (task : Expr A) (void named : Bool)

/-- The type is `void`. -/
def Expr.isVoid {A : Type} : Expr A → Bool
  | .apply _ void _ => void
  | .await _ void _ => void
  | _ => false

/-- The text of a C expression; `unit` is `(void)0` or `0`. -/
inductive Text (A : Type) where
  | temp (n : ℕ)
  | leaf (a : A)
  | apply (f : A) (operands : List (Text A))
  | unit

inductive Line (A : Type) where
  /-- A temporary is defined. -/
  | define (n : ℕ) (t : Text A)
  /-- A temporary is `!!` of something. -/
  | truth (n : ℕ) (t : Text A)
  /-- A temporary is `{0}`. -/
  | zero (n : ℕ)
  | eval (t : Text A)
  | locals (l : List Local) (t : Option (Text A))
  | drop (l : Local)
  | delete (t : Text A)
  /-- `waiting` is the future of a task, which is retained if it has a name. -/
  | wait (t : Text A) (named : Bool)
  /-- `error` and the result are those of `waiting`, which is released. -/
  | get (n : Option ℕ)
  | advance (n : ℕ)
  /-- The variable of a range is the element of an index. -/
  | element (n index : ℕ)
  | panic
  /-- `async_finish` with a result, or none, and without an error. -/
  | finish (t : Option (Text A))
  /-- `async_finish` with `error`. -/
  | fail

inductive Test (A : Type) where
  | holds (t : Text A)
  | fails (t : Text A)
  | anyLabel (t : Text A) (labels : List (Text A))
  | noLabel (t : Text A) (labels : List (Text A))
  /-- The index of a range is its length. -/
  | atEnd (n index : ℕ)
  /-- `tc_async->error` -/
  | error

abbrev Label := Library.Resumable.Label Unwinding.Label

abbrev Code (A : Type) := Library.Resumable.Code (Line A) (Test A) Unwinding.Label

/-- `serial` and `states` -/
structure Counters where
  serial : ℕ
  states : ℕ
deriving DecidableEq, Repr

abbrev Gen := StateT Counters Option

/-- `++g->serial` -/
def serial : Gen ℕ := fun c ↦ some (c.serial + 1, { c with serial := c.serial + 1 })

/-- `++g->states` -/
def state : Gen ℕ := fun c ↦ some (c.states + 1, { c with states := c.states + 1 })

/-- What the generator asks of the checked expressions: `returned_local`, and whether the type
of a subject is an enum. -/
structure Facts (A : Type) where
  returnedLocal : Expr A → Local → Bool
  isEnum : Expr A → Bool

section Expressions

variable {A : Type}

/-- `value` behind `expression` -/
def saved (void : Bool) (r : List (Code A) × Text A) : Gen (List (Code A) × Text A) :=
  if void then pure (r.1 ++ [.line (.eval r.2)], .unit)
  else do
    let n ← serial
    pure (r.1 ++ [.line (.define n r.2)], .temp n)

/-- The temporary of an await, unless its type is `void`. -/
def resultTemp (void : Bool) : Gen (Option ℕ) :=
  if void then pure none
  else do
    let n ← serial
    pure (some n)

mutual

/-- `expression`; `cleanup` makes the code of all that is registered. -/
def expression (cleanup : Gen (List (Code A))) : Expr A → Gen (List (Code A) × Text A)
  | .leaf a => pure ([], .leaf a)
  | .apply f _ args => do
      let r ← operands cleanup args
      pure (r.1, .apply f r.2)
  | .logic or a b => do
      let ra ← expression cleanup a
      let a ← saved a.isVoid ra
      let n ← serial
      let rb ← expression cleanup b
      let b ← saved b.isVoid rb
      pure (a.1 ++ [.line (.truth n a.2),
        .cond (if or then .fails (.temp n) else .holds (.temp n))
          (b.1 ++ [.line (.truth n b.2)]) []], .temp n)
  | .await task void named => do
      let k ← state
      let r ← expression cleanup task
      let a ← saved task.isVoid r
      let n ← resultTemp void
      let clean ← cleanup
      pure (a.1 ++ [.line (.wait a.2 named), .suspend k] ++ (n.toList.map fun n ↦ .line (.zero n)) ++
        [.line (.get n), .cond .error (clean ++ [.finish .fail]) []], n.elim .unit .temp)

def operands (cleanup : Gen (List (Code A))) :
    List (Bool × Expr A) → Gen (List (Code A) × List (Text A))
  | [] => pure ([], [])
  | (byValue, a) :: rest => do
      let r ← expression cleanup a
      let a ← (if byValue then saved a.isVoid r else pure r)
      let r ← operands cleanup rest
      pure (a.1 ++ r.1, a.2 :: r.2)

end

/-- `value` -/
def value (cleanup : Gen (List (Code A))) (a : Expr A) : Gen (List (Code A) × Text A) := do
  let r ← expression cleanup a
  saved a.isVoid r

variable (F : Facts A)

/-- One entry of `cleanup_emit`, with `returning`. -/
def cleanupLine (cleanup : Gen (List (Code A))) (returning : Option (Expr A)) :
    Cleanup (Expr A) → Gen (List (Code A))
  | .defer a => do
      let r ← expression cleanup a
      pure (r.1 ++ [.line (.eval r.2)])
  | .drop l => pure (if returning.any (F.returnedLocal · l) then [] else [.line (.drop l)])

/-- The loop of `cleanup_emit`. -/
def cleanupLines (cleanup : Gen (List (Code A))) (returning : Option (Expr A)) :
    List (Cleanup (Expr A)) → Gen (List (Code A))
  | [] => pure []
  | p :: rest => do
      let first ← cleanupLine F cleanup returning p
      let others ← cleanupLines cleanup returning rest
      pure (first ++ others)

/-- `cleanup_emit`, for a part of all that is registered. -/
def cleanupEmit (returning : Option (Expr A)) (all : List (Cleanup (Expr A))) :
    ℕ → List (Cleanup (Expr A)) → Gen (List (Code A))
  | 0, _ => failure
  | fuel + 1, part => cleanupLines F (cleanupEmit returning all fuel all) returning part

end Expressions

section Statements

variable {A : Type} (F : Facts A) (fuel : ℕ)

/-- `cleanup_emit(g, stop)` -/
def cleanupTo (all stop : List (Cleanup (Expr A))) : Gen (List (Code A)) :=
  cleanupEmit F none all fuel (all.take (all.length - stop.length))

/-- `cleanup_emit(g, NULL)` -/
def cleanupAll (all : List (Cleanup (Expr A))) : Gen (List (Code A)) :=
  cleanupEmit F none all fuel all

/-- The end of `scoped`: a block has its own braces. -/
def scopedCode (cleanup : List (Cleanup (Expr A))) (s : Stmt (Expr A))
    (r : List (Code A) × List (Cleanup (Expr A))) : Gen (List (Code A)) :=
  match s with
  | .block _ => pure r.1
  | _ => do
      let clean ← cleanupTo F fuel r.2 cleanup
      pure [.block (r.1 ++ clean)]

/-- A value that there may be none of. -/
def valueOption (cleanup : Gen (List (Code A))) :
    Option (Expr A) → Gen (List (Code A) × Option (Text A))
  | none => pure ([], none)
  | some a => do
      let r ← value cleanup a
      pure (r.1, some r.2)

/-- An expression that there may be none of. -/
def expressionOption (cleanup : Gen (List (Code A))) :
    Option (Expr A) → Gen (List (Code A) × Option (Text A))
  | none => pure ([], none)
  | some a => do
      let r ← expression cleanup a
      pure (r.1, some r.2)

/-- `if (!(a)) break;` for the condition of a loop. -/
def loopTest (cleanup : Gen (List (Code A))) : Option (Expr A) → Gen (List (Code A))
  | none => pure []
  | some a => do
      let r ← value cleanup a
      pure (r.1 ++ [.cond (.fails r.2) [.breakLoop] []])

/-- The line of an expression, if there is one. -/
def evalOption (cleanup : Gen (List (Code A))) : Option (Expr A) → Gen (List (Code A))
  | none => pure []
  | some a => do
      let r ← expression cleanup a
      pure (r.1 ++ [.line (.eval r.2)])

/-- The end of `N_WHILE`, `N_FOR` and `N_RANGE`. -/
def loopCode (id : ℕ) (init turn step clean : List (Code A)) : List (Code A) :=
  [.block (init ++ [.loop (turn ++ .label (.named (.cont id)) :: step), .label (.named (.brk id))] ++
    clean)]

/-- The labels of the cases, which come before the first of them. -/
def caseLabels (cleanup : Gen (List (Code A))) :
    List (Item (Expr A)) → Gen (List (Code A) × List (List (Text A)))
  | [] => pure ([], [])
  | (some labels, _) :: items => do
      let r ← operands cleanup (labels.map fun a ↦ (false, a))
      let r' ← caseLabels cleanup items
      pure (r.1 ++ r'.1, r.2 :: r'.2)
  | (none, _) :: items => caseLabels cleanup items

/-- The code of the cases: `else if`, or `else` for the last case of a guarded switch. -/
def chain (subject : Text A) (guard : Bool) (fallback : List (Code A)) :
    List (List (Text A) × List (Code A)) → List (Code A)
  | [] => fallback
  | (labels, body) :: cases =>
      if guard && cases.isEmpty then body
      else [.cond (.anyLabel subject labels) body (chain subject guard fallback cases)]

mutual

/-- `statement`: the code, and what is registered behind it. -/
def statement (cleanup : List (Cleanup (Expr A))) (loop : Option (ℕ × List (Cleanup (Expr A)))) :
    Stmt (Expr A) → Gen (List (Code A) × List (Cleanup (Expr A)))
  | .block body => do
      let r ← blockItems cleanup loop body
      let clean ← cleanupTo F fuel r.2 cleanup
      pure ([.block (r.1 ++ clean)], cleanup)
  | .var locals a => do
      let r ← (if 1 < locals.length then valueOption (cleanupAll F fuel cleanup) a
        else expressionOption (cleanupAll F fuel cleanup) a)
      pure (r.1 ++ [.line (.locals locals r.2)], registers (.var locals a) ++ cleanup)
  | .expr a => do
      let r ← evalOption (cleanupAll F fuel cleanup) a
      pure (r, cleanup)
  | .ret a => do
      let r ← valueOption (cleanupAll F fuel cleanup) a
      let clean ← cleanupEmit F a cleanup fuel cleanup
      pure (r.1 ++ clean ++ [.finish (.finish r.2)], cleanup)
  | .ite a body b => do
      let r ← value (cleanupAll F fuel cleanup) a
      let rb ← statement cleanup loop body
      let left ← scopedCode F fuel cleanup body rb
      let right ← (match b with
        | none => pure []
        | some b => do
            let rb ← statement cleanup loop b
            scopedCode F fuel cleanup b rb)
      pure (r.1 ++ [.cond (.holds r.2) left right], cleanup)
  | .switch a items => do
      let r ← value (cleanupAll F fuel cleanup) a
      let labels ← caseLabels (cleanupAll F fuel cleanup) items
      let cases ← caseCodes cleanup loop items
      let fallback ← defaultCode cleanup loop items
      let guard := F.isEnum a && !hasDefault items
      pure (r.1 ++ labels.1 ++
        (if guard && !items.isEmpty then
          [.cond (.noLabel r.2 labels.2.flatten) [.line .panic] []] else []) ++
        chain r.2 guard fallback (labels.2.zip cases), cleanup)
  | .while a body => do
      let id ← serial
      let test ← loopTest (cleanupAll F fuel cleanup) (some a)
      let r ← statement cleanup (some (id, cleanup)) body
      let turn ← scopedCode F fuel cleanup body r
      pure (loopCode id [] (test ++ turn) [] [], cleanup)
  | .for a b c body => do
      let init ← (match a with
        | none => pure ([], cleanup)
        | some a => statement cleanup loop a)
      let id ← serial
      let test ← loopTest (cleanupAll F fuel init.2) b
      let r ← statement init.2 (some (id, init.2)) body
      let turn ← scopedCode F fuel init.2 body r
      let step ← evalOption (cleanupAll F fuel init.2) c
      let clean ← cleanupTo F fuel init.2 cleanup
      pure (loopCode id init.1 (test ++ turn) step clean, cleanup)
  | .range a body => do
      let r ← expression (cleanupAll F fuel cleanup) a
      let n ← serial
      let index ← serial
      let id ← serial
      let rb ← statement cleanup (some (id, cleanup)) body
      let turn ← scopedCode F fuel cleanup body rb
      pure (loopCode id (r.1 ++ [.line (.define n r.2), .line (.zero index)])
        ([.cond (.atEnd n index) [.breakLoop] [], .line (.element n index)] ++ turn)
        [.line (.advance index)] [], cleanup)
  | .break =>
      match loop with
      | some (id, stop) => do
          let clean ← cleanupTo F fuel cleanup stop
          pure (clean ++ [.goto (.brk id)], cleanup)
      | none => failure
  | .continue =>
      match loop with
      | some (id, stop) => do
          let clean ← cleanupTo F fuel cleanup stop
          pure (clean ++ [.goto (.cont id)], cleanup)
      | none => failure
  | .defer a => pure ([], .defer a :: cleanup)
  | .delete a => do
      let r ← value (cleanupAll F fuel cleanup) a
      pure (r.1 ++ [.line (.delete r.2)], cleanup)

/-- The statements of a block. -/
def blockItems (cleanup : List (Cleanup (Expr A))) (loop : Option (ℕ × List (Cleanup (Expr A)))) :
    List (Stmt (Expr A)) → Gen (List (Code A) × List (Cleanup (Expr A)))
  | [] => pure ([], cleanup)
  | s :: rest => do
      let r ← statement cleanup loop s
      let r' ← blockItems r.2 loop rest
      pure (r.1 ++ r'.1, r'.2)

/-- The blocks of the cases. -/
def caseCodes (cleanup : List (Cleanup (Expr A))) (loop : Option (ℕ × List (Cleanup (Expr A)))) :
    List (Item (Expr A)) → Gen (List (List (Code A)))
  | [] => pure []
  | (some _, body) :: items => do
      let r ← blockItems cleanup loop body
      let clean ← cleanupTo F fuel r.2 cleanup
      let r' ← caseCodes cleanup loop items
      pure ([.block (r.1 ++ clean)] :: r')
  | (none, _) :: items => caseCodes cleanup loop items

/-- The block of the last default. -/
def defaultCode (cleanup : List (Cleanup (Expr A))) (loop : Option (ℕ × List (Cleanup (Expr A)))) :
    List (Item (Expr A)) → Gen (List (Code A))
  | [] => pure []
  | (none, body) :: items =>
      if hasDefault items then defaultCode cleanup loop items
      else do
        let r ← blockItems cleanup loop body
        let clean ← cleanupTo F fuel r.2 cleanup
        pure [.block (r.1 ++ clean)]
  | (some _, _) :: items => defaultCode cleanup loop items

end

/-- The code that `async_function` puts behind the `switch` of the step function. -/
def asyncFunction (body : List (Stmt (Expr A))) : Gen (List (Code A)) := do
  let r ← blockItems F fuel [] none body
  let clean ← cleanupAll F fuel r.2
  pure ([.label (.state 0)] ++ r.1 ++ clean ++ [.finish (.finish none)])

end Statements

end TinyCPlus.Compiler.Async
