import TinyCPlus.Compiler.Statement

/-!
# Clean-up code

A defer or a variable with a destructor is registered in its scope, and what is registered runs
when the scope is left.  The generator copies it to every exit of the scope instead.  Expressions
are lowered elsewhere; here they are steps on a state of the program.
-/

namespace TinyCPlus.Compiler.Unwinding

/-- Steps on a state that may panic or not end. -/
abbrev Effect (σ : Type) : Type → Type := ExceptT Unit (StateT σ Option)

/-- There is no end within the fuel. -/
def exhausted {σ α : Type} : Effect σ α := fun _ ↦ none

/-- What an exit of a scope runs. -/
inductive Cleanup (E : Type) where
  | defer (a : E)
  | drop (l : Local)

/-- How a statement ends. -/
inductive Exit (E ν : Type) where
  | normal
  | broke
  | continued
  | returned (v : Option ν) (a : Option E)

/-- What expressions, variables and ranges do. -/
structure Meaning (E σ ν : Type) where
  eval : E → Effect σ ν
  truth : ν → Bool
  /-- The value of a switch is that of a label. -/
  isLabel : ν → E → Bool
  /-- The variables get their values, or zero. -/
  define : List Local → Option ν → Effect σ Unit
  drop : Local → Effect σ Unit
  delete : ν → Effect σ Unit
  /-- The index of a range is zero. -/
  start : ν → Effect σ Unit
  /-- The variable of a range gets the next element, if there is one. -/
  next : ν → Effect σ Bool
  advance : ν → Effect σ Unit
  /-- `returned_local` -/
  returnedLocal : E → Local → Bool
  /-- The type of the subject is an enum. -/
  isEnum : E → Bool

variable {E σ ν : Type} (M : Meaning E σ ν)

/-! ## What a body means -/

/-- What a statement registers when it is done, the last first. -/
def registers : Stmt E → List (Cleanup E)
  | .var locals _ => ((locals.filter (·.destructor)).map .drop).reverse
  | .defer a => [.defer a]
  | _ => []

namespace Meaning

def evalOption : Option E → Effect σ (Option ν)
  | none => pure none
  | some a => some <$> M.eval a

/-- Runs what is registered; a variable that is returned is kept. -/
def unwind (returning : Option E) : List (Cleanup E) → Effect σ Unit
  | [] => pure ()
  | .defer a :: rest => do
      let _ ← M.eval a
      unwind returning rest
  | .drop l :: rest => do
      if returning.any (M.returnedLocal · l) then unwind returning rest
      else
        M.drop l
        unwind returning rest

end Meaning

def Exit.returning : Exit E ν → Option E
  | .returned _ a => a
  | _ => none

/-- A scope is left. -/
def leave (registered : List (Cleanup E)) (o : Exit E ν) : Effect σ (Exit E ν) := do
  M.unwind o.returning registered
  pure o

/-- A statement that is a scope of its own. -/
def inScope (s : Stmt E) (e : Effect σ (Exit E ν)) : Effect σ (Exit E ν) := do
  match ← e with
  | .normal => leave M (registers s) .normal
  | o => pure o

/-- At most `n` turns of a loop. -/
def turns (test : Effect σ Bool) (body : Effect σ (Exit E ν)) (step : Effect σ Unit) :
    ℕ → Effect σ (Exit E ν)
  | 0 => exhausted
  | n + 1 => do
      if ← test then
        match ← body with
        | .normal | .continued => do
            step
            turns test body step n
        | .broke => pure .normal
        | o => pure o
      else pure .normal

def isTrue (a : E) : Effect σ Bool := M.truth <$> M.eval a

/-- The condition of a `for`. -/
def loopTest : Option E → Effect σ Bool
  | some b => isTrue M b
  | none => pure true

mutual

/-- A statement; every loop makes at most `fuel` turns. -/
def exec (fuel : ℕ) : Stmt E → Effect σ (Exit E ν)
  | .block body => execItems fuel [] body
  | .var locals a => do
      let v ← M.evalOption a
      M.define locals v
      pure .normal
  | .expr a => do
      let _ ← M.evalOption a
      pure .normal
  | .ret a => do
      let v ← M.evalOption a
      pure (.returned v a)
  | .ite a body b => do
      if ← isTrue M a then inScope M body (exec fuel body)
      else
        match b with
        | some b => inScope M b (exec fuel b)
        | none => pure .normal
  | .switch a items => do
      let v ← M.eval a
      match execCase fuel v items, execDefault fuel items with
      | some e, _ => e
      | none, some e => e
      | none, none => if M.isEnum a && !items.isEmpty then throw () else pure .normal
  | .while a body => turns (isTrue M a) (inScope M body (exec fuel body)) (pure ()) fuel
  | .for a b c body => do
      let loop := turns (loopTest M b) (inScope M body (exec fuel body))
        (do let _ ← M.evalOption c) fuel
      match a with
      | some a =>
          match ← exec fuel a with
          | .normal => do leave M (registers a) (← loop)
          | o => pure o
      | none => loop
  | .range a body => do
      let v ← M.eval a
      M.start v
      turns (M.next v) (inScope M body (exec fuel body)) (M.advance v) fuel
  | .break => pure .broke
  | .continue => pure .continued
  | .defer _ => pure .normal
  | .delete a => do
      M.delete (← M.eval a)
      pure .normal

/-- The statements of a scope, with what is registered so far. -/
def execItems (fuel : ℕ) (registered : List (Cleanup E)) :
    List (Stmt E) → Effect σ (Exit E ν)
  | [] => leave M registered .normal
  | s :: rest => do
      match ← exec fuel s with
      | .normal => execItems fuel (registers s ++ registered) rest
      | o => leave M registered o

/-- The first case with a label that is the value. -/
def execCase (fuel : ℕ) (v : ν) : List (Item E) → Option (Effect σ (Exit E ν))
  | [] => none
  | (some labels, body) :: items =>
      if labels.any (M.isLabel v) then some (execItems fuel [] body) else execCase fuel v items
  | (none, _) :: items => execCase fuel v items

def execDefault (fuel : ℕ) : List (Item E) → Option (Effect σ (Exit E ν))
  | [] => none
  | (none, body) :: items => (execDefault fuel items).or (some (execItems fuel [] body))
  | (some _, _) :: items => execDefault fuel items

end

/-- A function: the statements of its body and what it returns. -/
def execFunction (fuel : ℕ) (body : List (Stmt E)) : Effect σ (Option ν) := do
  match ← execItems M fuel [] body with
  | .normal => pure none
  | .returned v _ => pure v
  | .broke | .continued => exhausted

/-! ## The C code -/

/-- `tc_break_%d` and `tc_continue_%d` -/
inductive Label where
  | brk (id : ℕ)
  | cont (id : ℕ)
deriving DecidableEq, Repr

/-- A condition of C on a temporary. -/
inductive Test (E : Type) where
  | holds (n : ℕ)
  | fails (n : ℕ)
  | anyLabel (n : ℕ) (labels : List E)
  | noLabel (n : ℕ) (labels : List E)

inductive Code (E : Type) where
  | eval (a : E)
  | define (locals : List Local) (a : Option E)
  | drop (l : Local)
  | save (n : ℕ) (a : E)
  | delete (n : ℕ)
  | start (n : ℕ)
  /-- `if (index >= len) break;` and the variable of a range. -/
  | next (n : ℕ)
  | advance (n : ℕ)
  | panic
  | cond (t : Test E) (a b : List (Code E))
  | block (body : List (Code E))
  | loop (body : List (Code E))
  | breakLoop
  | goto (l : Label)
  | label (l : Label)
  | ret (n : Option ℕ)

/-! ## The generator -/

/-- The parts of `CG` that exits depend on: `cleanup`, `loop` with its `stop`, and `serial`. -/
structure CG (E : Type) where
  cleanup : List (Cleanup E)
  loop : Option (ℕ × List (Cleanup E))
  serial : ℕ

/-- The line that `cleanup_emit` makes, with `returning`. -/
def Cleanup.line (returning : Option E) : Cleanup E → Option (Code E)
  | .defer a => some (.eval a)
  | .drop l => if returning.any (M.returnedLocal · l) then none else some (.drop l)

/-- `cleanup_emit` down to `stop`. -/
def cleanupEmit (returning : Option E) (cleanup stop : List (Cleanup E)) : List (Code E) :=
  (cleanup.take (cleanup.length - stop.length)).filterMap (Cleanup.line M returning)

/-- `scoped` around the code of a statement; a block has its own braces. -/
def scopedCode (g : CG E) (s : Stmt E) (r : List (Code E) × CG E) : List (Code E) :=
  match s with
  | .block _ => r.1
  | _ => [.block (r.1 ++ cleanupEmit M none r.2.cleanup g.cleanup)]

/-- The end of `N_WHILE`, `N_FOR` and `N_RANGE`. -/
def loopCode (id : ℕ) (init turn step clean : List (Code E)) : List (Code E) :=
  [.block (init ++ [.loop (turn ++ .label (.cont id) :: step), .label (.brk id)] ++ clean)]

def CG.counted (g : CG E) (serial : ℕ) : CG E := { g with serial := serial }

/-- The code of the cases: `else if`, or `else` for the last case of a guarded switch. -/
def chain (n : ℕ) (guard : Bool) (fallback : List (Code E)) :
    List (List E × List (Code E)) → List (Code E)
  | [] => fallback
  | (labels, body) :: cases =>
      if guard && cases.isEmpty then body
      else [.cond (.anyLabel n labels) body (chain n guard fallback cases)]

/-- The labels of all cases. -/
def allLabels (items : List (Item E)) : List E := items.flatMap fun item ↦ item.1.getD []

mutual

/-- `statement` -/
def statement (g : CG E) : Stmt E → List (Code E) × CG E
  | .block body =>
      let r := blockItems g body
      ([.block (r.1 ++ cleanupEmit M none r.2.cleanup g.cleanup)], g.counted r.2.serial)
  | .var locals a => ([.define locals a], { g with cleanup := registers (.var locals a) ++ g.cleanup })
  | .expr a => (a.toList.map .eval, g)
  | .ret a =>
      let n := g.serial + 1
      ((a.toList.map fun a ↦ .save n a) ++ cleanupEmit M a g.cleanup [] ++ [.ret (a.map fun _ ↦ n)],
        g.counted n)
  | .ite a body b =>
      let n := g.serial + 1
      let r := statement (g.counted n) body
      match b with
      | some b =>
          let r' := statement (g.counted r.2.serial) b
          ([.save n a, .cond (.holds n) (scopedCode M g body r) (scopedCode M g b r')],
            g.counted r'.2.serial)
      | none => ([.save n a, .cond (.holds n) (scopedCode M g body r) []], g.counted r.2.serial)
  | .switch a items =>
      let n := g.serial + 1
      let guard := M.isEnum a && !hasDefault items
      let cases := caseCodes (g.counted n) items
      let fallback := defaultCode (g.counted cases.2) items
      ([.save n a] ++
        (if guard && !items.isEmpty then [.cond (.noLabel n (allLabels items)) [.panic] []] else []) ++
        chain n guard fallback.1 cases.1,
        g.counted fallback.2)
  | .while a body =>
      let id := g.serial + 1
      let n := id + 1
      let inner : CG E := ⟨g.cleanup, some (id, g.cleanup), n⟩
      let r := statement inner body
      (loopCode id [] ([.save n a, .cond (.fails n) [.breakLoop] []] ++ scopedCode M inner body r) [] [],
        g.counted r.2.serial)
  | .for a b c body =>
      let init :=
        match a with
        | some a => statement g a
        | none => ([], g)
      let id := init.2.serial + 1
      let n := id + 1
      let inner : CG E := ⟨init.2.cleanup, some (id, init.2.cleanup), n⟩
      let r := statement inner body
      let test :=
        match b with
        | some b => [.save n b, .cond (.fails n) [.breakLoop] []]
        | none => []
      (loopCode id init.1 (test ++ scopedCode M inner body r) (c.toList.map .eval)
          (cleanupEmit M none init.2.cleanup g.cleanup),
        g.counted r.2.serial)
  | .range a body =>
      let n := g.serial + 1
      let id := n + 1
      let inner : CG E := ⟨g.cleanup, some (id, g.cleanup), id⟩
      let r := statement inner body
      (loopCode id [.save n a, .start n] ([.next n] ++ scopedCode M inner body r) [.advance n] [],
        g.counted r.2.serial)
  | .break =>
      match g.loop with
      | some (id, stop) => (cleanupEmit M none g.cleanup stop ++ [.goto (.brk id)], g)
      | none => ([], g)
  | .continue =>
      match g.loop with
      | some (id, stop) => (cleanupEmit M none g.cleanup stop ++ [.goto (.cont id)], g)
      | none => ([], g)
  | .defer a => ([], { g with cleanup := .defer a :: g.cleanup })
  | .delete a => ([.save (g.serial + 1) a, .delete (g.serial + 1)], g.counted (g.serial + 1))

/-- The statements of a block. -/
def blockItems (g : CG E) : List (Stmt E) → List (Code E) × CG E
  | [] => ([], g)
  | s :: rest =>
      let r := statement g s
      let r' := blockItems r.2 rest
      (r.1 ++ r'.1, r'.2)

/-- The labels and the code of the cases, and `serial`. -/
def caseCodes (g : CG E) : List (Item E) → List (List E × List (Code E)) × ℕ
  | [] => ([], g.serial)
  | (some labels, body) :: items =>
      let r := blockItems g body
      let r' := caseCodes (g.counted r.2.serial) items
      ((labels, [.block (r.1 ++ cleanupEmit M none r.2.cleanup g.cleanup)]) :: r'.1, r'.2)
  | (none, _) :: items => caseCodes g items

/-- The code of the default, and `serial`. -/
def defaultCode (g : CG E) : List (Item E) → List (Code E) × ℕ
  | [] => ([], g.serial)
  | (none, body) :: items =>
      if hasDefault items then defaultCode g items
      else
        let r := blockItems g body
        ([.block (r.1 ++ cleanupEmit M none r.2.cleanup g.cleanup)], r.2.serial)
  | (some _, _) :: items => defaultCode g items

end

/-- `function` -/
def function (body : List (Stmt E)) : List (Code E) :=
  let r := blockItems M ⟨[], none, 0⟩ body
  r.1 ++ cleanupEmit M none r.2.cleanup []

/-! ## What the code does -/

inductive CExit (ν : Type) where
  | normal
  | brk
  | jump (l : Label)
  | returned (v : Option ν)

/-- The value of a temporary that is in scope. -/
def read (env : ℕ → Option ν) (n : ℕ) : Effect σ ν :=
  match env n with
  | some v => pure v
  | none => exhausted

def Test.eval (env : ℕ → Option ν) : Test E → Effect σ Bool
  | .holds n => M.truth <$> read env n
  | .fails n => (!M.truth ·) <$> read env n
  | .anyLabel n labels => (fun v ↦ labels.any (M.isLabel v)) <$> read env n
  | .noLabel n labels => (fun v ↦ !labels.any (M.isLabel v)) <$> read env n

/-- At most `n` turns of `for (;;)`. -/
def repeatCode (body : Effect σ (CExit ν)) : ℕ → Effect σ (CExit ν)
  | 0 => exhausted
  | n + 1 => do
      match ← body with
      | .normal => repeatCode body n
      | .brk => pure .normal
      | o => pure o

mutual

/-- A line of C with the temporaries in scope. -/
def Code.run (fuel : ℕ) (env : ℕ → Option ν) : Code E → Effect σ (CExit ν)
  | .eval a | .save _ a => do
      let _ ← M.eval a
      pure .normal
  | .define locals a => do
      M.define locals (← M.evalOption a)
      pure .normal
  | .drop l => do
      M.drop l
      pure .normal
  | .delete n => do
      M.delete (← read env n)
      pure .normal
  | .start n => do
      M.start (← read env n)
      pure .normal
  | .next n => do
      if ← M.next (← read env n) then pure .normal else pure .brk
  | .advance n => do
      M.advance (← read env n)
      pure .normal
  | .panic => throw ()
  | .cond t a b => do
      if ← t.eval M env then Code.runAll fuel env none a else Code.runAll fuel env none b
  | .block body => Code.runAll fuel env none body
  | .loop body => repeatCode (Code.runAll fuel env none body) fuel
  | .breakLoop => pure .brk
  | .goto l => pure (.jump l)
  | .label _ => pure .normal
  | .ret none => pure (.returned none)
  | .ret (some n) => do pure (.returned (some (← read env n)))

/-- The lines of a block; a jump goes on behind its label if that is further down, else it leaves
the block. -/
def Code.runAll (fuel : ℕ) (env : ℕ → Option ν) (jump : Option Label) :
    List (Code E) → Effect σ (CExit ν)
  | [] =>
      match jump with
      | none => pure .normal
      | some l => pure (.jump l)
  | .label l :: rest => Code.runAll fuel env (if jump = some l then none else jump) rest
  | .save n a :: rest =>
      match jump with
      | none => do
          let v ← M.eval a
          Code.runAll fuel (Function.update env n (some v)) none rest
      | some l => Code.runAll fuel env (some l) rest
  | c :: rest =>
      match jump with
      | none => do
          match ← c.run fuel env with
          | .normal => Code.runAll fuel env none rest
          | .jump l => Code.runAll fuel env (some l) rest
          | o => pure o
      | some l => Code.runAll fuel env (some l) rest

end

/-- The function in C, called with no temporaries. -/
def runFunction (fuel : ℕ) (code : List (Code E)) : Effect σ (Option ν) := do
  match ← Code.runAll M fuel (fun _ ↦ none) none code with
  | .normal => pure none
  | .returned v => pure v
  | .brk | .jump _ => exhausted

end TinyCPlus.Compiler.Unwinding
