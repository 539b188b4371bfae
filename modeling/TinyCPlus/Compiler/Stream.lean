import TinyCPlus.Library.Effects
import TinyCPlus.Library.Traversal

/-!
# Stream pipelines (`stream_call` of `semantic.c`, `stream_expression` of `cgen.c`)

A pipeline is found among nested method calls and becomes one loop.  The types
of the callbacks are checked elsewhere; here a callback is an expression whose
value is invoked.
-/

namespace TinyCPlus.Compiler

open TinyCPlus.Library

/-! ## Pipelines -/

/-- An expression: a method call `receiver.name(args)` or another one. -/
inductive CallExpr (ι : Type) where
  | call (receiver : CallExpr ι) (name : String) (args : List (CallExpr ι))
  | other (e : ι)

inductive StageKind where
  | filter
  | map
deriving DecidableEq, Repr

/-- The calls before the terminal operation, each around the one before it. -/
inductive Stages (E : Type) where
  | stream (source : E)
  | stage (base : Stages E) (kind : StageKind) (callback : E)

inductive Terminal (E : Type) where
  | forEach (callback : E)
  | count
  | first
  | any (callback : E)
  | all (callback : E)
  | reduce (init callback : E)
  | collect (destination : E)

structure StreamPipeline (E : Type) where
  stages : Stages E
  terminal : Terminal E

namespace Stages

variable {E : Type}

def source : Stages E → E
  | .stream source => source
  | .stage base _ _ => base.source

/-- The number of filters and maps. -/
def length : Stages E → ℕ
  | .stream _ => 0
  | .stage base _ _ => base.length + 1

end Stages

namespace CallExpr

variable {ι : Type}

/-- The loop of `stream_call` over the receivers, from a depth on. -/
def isStream : CallExpr ι → ℕ → Except String Bool
  | .call receiver name _, depth =>
      if 128 < depth + 1 then .error "stream stage limit exceeded"
      else if name = "stream" then .ok true
      else receiver.isStream (depth + 1)
  | .other _, _ => .ok false

/-- `stream_stage` -/
def streamStage : CallExpr ι → Except String (Stages (CallExpr ι))
  | .other _ => .error "invalid stream pipeline"
  | .call receiver name args =>
      if name = "stream" then
        if args.isEmpty then .ok (.stream receiver)
        else .error "stream() requires an array, slice or string"
      else do
        let base ← receiver.streamStage
        match args with
        | [callback] =>
            if name = "filter" then .ok (.stage base .filter callback)
            else if name = "map" then .ok (.stage base .map callback)
            else .error ("unknown stream stage '" ++ name ++ "'")
        | _ => .error "stream stage requires one callback"

/-- The terminal operation of `stream_call`. -/
def streamTerminal (name : String) (args : List (CallExpr ι)) :
    Except String (Terminal (CallExpr ι)) :=
  if name = "count" then
    if args.isEmpty then .ok .count else .error "count takes no arguments"
  else if name = "first" then
    if args.isEmpty then .ok .first else .error "first takes no arguments"
  else if name = "forEach" ∨ name = "any" ∨ name = "all" then
    match args with
    | [callback] =>
        .ok (if name = "forEach" then .forEach callback
          else if name = "any" then .any callback else .all callback)
    | _ => .error "stream terminal requires one callback"
  else if name = "reduce" then
    match args with
    | [init, callback] => .ok (.reduce init callback)
    | _ => .error "reduce requires an initial value and reducer"
  else if name = "collect" then
    match args with
    | [destination] => .ok (.collect destination)
    | _ => .error "collect requires a pointer to an Array destination"
  else .error ("unknown stream terminal '" ++ name ++ "'")

/-- `stream_call`: the pipeline that a call is the end of, if it is one. -/
def streamCall : CallExpr ι → Except String (Option (StreamPipeline (CallExpr ι)))
  | .other _ => .ok none
  | .call receiver name args => do
      if ← receiver.isStream 0 then
        if name = "map" ∨ name = "filter" then
          .error "stream pipeline needs a terminal operation"
        else
          let stages ← receiver.streamStage
          let terminal ← streamTerminal name args
          .ok (some ⟨stages, terminal⟩)
      else .ok none

/-- A stage stands on the stages of its receiver. -/
theorem streamStage_cases {receiver : CallExpr ι} {name : String} {args : List (CallExpr ι)}
    {stages : Stages (CallExpr ι)} (hname : name ≠ "stream")
    (h : streamStage (.call receiver name args) = .ok stages) :
    ∃ base, receiver.streamStage = .ok base ∧ stages.length = base.length + 1 := by
  rw [streamStage, if_neg hname] at h
  cases hbase : receiver.streamStage with
  | error message =>
      rw [hbase] at h
      cases h
  | ok base =>
      rw [hbase] at h
      refine ⟨base, rfl, ?_⟩
      change (match args with
        | [callback] => _
        | _ => _) = _ at h
      split at h
      · split_ifs at h <;> cases h <;> rfl
      · cases h

theorem isStream_length {e : CallExpr ι} {depth : ℕ} (h : e.isStream depth = .ok true)
    {stages : Stages (CallExpr ι)} (hstages : e.streamStage = .ok stages) :
    depth + stages.length < 128 := by
  fun_induction isStream e depth generalizing stages with
  | case1 => cases h
  | case2 depth receiver args hdepth =>
      rw [streamStage, if_pos rfl] at hstages
      split_ifs at hstages
      cases hstages
      exact Nat.lt_of_not_le fun hle ↦ hdepth (Nat.lt_succ_of_le hle)
  | case3 depth receiver name args hdepth hname ih =>
      obtain ⟨base, hbase, hlength⟩ := streamStage_cases hname hstages
      have hless := ih h hbase
      omega
  | case4 => cases h

/-- The stages of a pipeline fit into the array of `stream_expression`. -/
theorem streamCall_length {e : CallExpr ι} {p : StreamPipeline (CallExpr ι)}
    (h : e.streamCall = .ok (some p)) : p.stages.length < 128 := by
  cases e with
  | other e => cases h
  | call receiver name args =>
      rw [streamCall] at h
      cases hstream : receiver.isStream 0 with
      | error message =>
          rw [hstream] at h
          cases h
      | ok found =>
          rw [hstream] at h
          cases found with
          | false => cases h
          | true =>
              change (if name = "map" ∨ name = "filter" then _ else _) = _ at h
              split_ifs at h
              cases hstages : receiver.streamStage with
              | error message =>
                  rw [hstages] at h
                  cases h
              | ok stages =>
                  rw [hstages] at h
                  cases hterminal : streamTerminal name args with
                  | error message =>
                      change (streamTerminal name args >>= fun t ↦ _) = _ at h
                      rw [hterminal] at h
                      cases h
                  | ok terminal =>
                      change (streamTerminal name args >>= fun t ↦ _) = _ at h
                      rw [hterminal] at h
                      cases h
                      have hless := isStream_length hstream hstages
                      rwa [Nat.zero_add] at hless

end CallExpr

/-! ## The loop -/

/-- The number of a temporary. -/
abbrev Temp := ℕ

/-- What the loop reads: `data[index]` of a pointer to a fixed array, or of the
copy of a slice, string or `Array`. -/
inductive LoopSource where
  | pointer (data : Temp) (count : ℕ)
  | saved (t : Temp)
deriving DecidableEq, Repr

/-- How a result is initialised: `{0}` of its type, or 1. -/
inductive InitialResult where
  | zeroCount
  | zeroPair
  | no
  | yes
deriving DecidableEq, Repr

/-- The statements that are emitted; `decide` is `if (call) { t = true; break; }`
or `if (!(call)) { t = false; break; }`. -/
inductive StreamCode (E : Type) where
  | value (t : Temp) (e : E)
  | pointer (t : Temp) (e : E)
  | initial (t : Temp) (r : InitialResult)
  | copy (t u : Temp)
  | item (t : Temp) (source : LoopSource) (index : Temp)
  | skipUnless (callback item : Temp)
  | map (t callback item : Temp)
  | run (callback item : Temp)
  | increment (t : Temp)
  | found (t item : Temp)
  | push (destination item : Temp)
  | combine (t callback item : Temp)
  | decide (t callback item : Temp) (wanted : Bool)

/-- The statements before the loop, the loop and the result. -/
structure FusedLoop (E : Type) where
  prologue : List (StreamCode E)
  source : LoopSource
  index : Temp
  body : List (StreamCode E)
  result : Option Temp

/-- What is known of an expression: the length of its fixed array type, which is not
zero, and whether its C text denotes an object that outlives the statement. -/
structure SourceTypes (E : Type) where
  count : E → Option ℕ
  lasting : E → Bool
  count_ne_zero : ∀ e, count e ≠ some 0

section Lowering

variable {E : Type} (T : SourceTypes E)

/-- The source of the loop, in the temporary `t`. -/
def lowerSource (e : E) (t : Temp) : StreamCode E × LoopSource :=
  match T.count e with
  | some count => (.pointer t e, .pointer t count)
  | none => (.value t e, .saved t)

/-- `stages[0]`, …: the last stage comes first. -/
def Stages.unwind : Stages E → List (StageKind × E)
  | .stream _ => []
  | .stage base kind callback => (kind, callback) :: base.unwind

/-- The callbacks, each in a temporary of its own, from `t` on. -/
def lowerCallbacks : List (StageKind × E) → Temp → List (StreamCode E) × List (StageKind × Temp)
  | [], _ => ([], [])
  | (kind, callback) :: rest, t =>
      let (code, stages) := lowerCallbacks rest (t + 1)
      (.value t callback :: code, (kind, t) :: stages)

/-- The stages in the loop; `t` is the next temporary.  A map renames the item. -/
def lowerStages : List (StageKind × Temp) → Temp → Temp → List (StreamCode E) × Temp
  | [], item, _ => ([], item)
  | (.filter, callback) :: rest, item, t =>
      let (code, last) := lowerStages rest item t
      (.skipUnless callback item :: code, last)
  | (.map, callback) :: rest, item, t =>
      let (code, last) := lowerStages rest t (t + 1)
      (.map t callback item :: code, last)

/-- What the terminal operation does before the loop, with temporaries from `t` on:
the statements, its result, its callback or destination and the next temporary. -/
def lowerTerminal : Terminal E → Temp → List (StreamCode E) × Option Temp × Temp × Temp
  | .forEach callback, t => ([.value t callback], none, t, t + 1)
  | .count, t => ([.initial t .zeroCount], some t, t, t + 1)
  | .first, t => ([.initial t .zeroPair], some t, t, t + 1)
  | .any callback, t => ([.initial t .no, .value (t + 1) callback], some t, t + 1, t + 2)
  | .all callback, t => ([.initial t .yes, .value (t + 1) callback], some t, t + 1, t + 2)
  | .reduce init callback, t =>
      ([.value (t + 1) init, .copy t (t + 1), .value (t + 2) callback], some t, t + 2, t + 3)
  | .collect destination, t => ([.value t destination], none, t, t + 1)

/-- What the terminal operation does with an item; `t` is its result and `u` its
callback or destination. -/
def terminalCode : Terminal E → Temp → Temp → Temp → StreamCode E
  | .forEach _, _, u, item => .run u item
  | .count, t, _, _ => .increment t
  | .first, t, _, item => .found t item
  | .any _, t, u, item => .decide t u item true
  | .all _, t, u, item => .decide t u item false
  | .reduce _ _, t, u, item => .combine t u item
  | .collect _, _, u, item => .push u item

/-- `stream_expression`, with the temporaries from `t` on. -/
def streamExpression (p : StreamPipeline E) (t : Temp) : FusedLoop E :=
  let (sourceCode, source) := lowerSource T p.stages.source t
  let callbacks := p.stages.unwind.reverse
  let (callbackCode, stages) := lowerCallbacks callbacks (t + 1)
  let (terminalInit, result, terminal, index) :=
    lowerTerminal p.terminal (t + 1 + callbacks.length)
  let item := index + 1
  let (stageCode, last) := lowerStages stages item (item + 1)
  { prologue := sourceCode :: callbackCode ++ terminalInit
    source := source
    index := index
    body := .item item source index :: stageCode ++
      [terminalCode p.terminal (result.getD 0) terminal last]
    result := result }

end Lowering

/-! ## What the loop does -/

/-- The values of expressions and what is done with them. -/
structure StreamWorld (E V σ : Type) where
  eval : E → Effect σ V
  invoke : V → List V → Effect σ V
  push : V → V → Effect σ Unit
  length : V → ℕ
  element : V → ℕ → σ → V
  ofCount : ℕ → V
  succ : V → V
  ofBool : Bool → V
  isTrue : V → Bool
  pair : V → V → V
  zero : V
  succ_ofCount : ∀ n, succ (ofCount n) = ofCount (n + 1)

/-- A temporary: a value, a pointer to the elements of an array unless they are
gone, or the index. -/
inductive TempContent (V : Type) where
  | value (v : V)
  | pointer (array : Option V)
  | index (i : ℕ)

abbrev Temps (V : Type) := Temp → Option (TempContent V)

/-- How a statement of the loop body is left. -/
inductive LoopFlow where
  | next
  | continue
  | break
deriving DecidableEq, Repr

namespace StreamWorld

variable {E V σ : Type} (T : SourceTypes E) (W : StreamWorld E V σ)

def getValue (env : Temps V) (t : Temp) : Effect σ V :=
  match env t with
  | some (.value v) => pure v
  | _ => failure

def getIndex (env : Temps V) (t : Temp) : Effect σ ℕ :=
  match env t with
  | some (.index i) => pure i
  | _ => failure

/-- The length that the index is compared with. -/
def getLength (env : Temps V) : LoopSource → Effect σ ℕ
  | .pointer _ count => pure count
  | .saved t => do
      let v ← getValue env t
      pure (W.length v)

/-- The collection behind `data`; an array that is gone must not be read. -/
def getSource (env : Temps V) : LoopSource → Effect σ V
  | .pointer data _ =>
      match env data with
      | some (.pointer (some array)) => pure array
      | _ => failure
  | .saved t => getValue env t

/-- The element at an index. -/
def getElement (source : V) (i : ℕ) : Effect σ V := fun s ↦ some (W.element source i s, s)

def initialResult : InitialResult → V
  | .zeroCount => W.ofCount 0
  | .zeroPair => W.pair W.zero (W.ofBool false)
  | .no => W.ofBool false
  | .yes => W.ofBool true

def setTemp (env : Temps V) (t : Temp) (v : V) : Temps V :=
  Function.update env t (some (.value v))

/-- A statement of the loop. -/
def execStatement (env : Temps V) : StreamCode E → Effect σ (LoopFlow × Temps V)
  | .value t e => do
      let v ← W.eval e
      pure (.next, setTemp env t v)
  | .pointer t e => do
      let v ← W.eval e
      let array := if T.lasting e then some v else none
      pure (.next, Function.update env t (some (.pointer array)))
  | .initial t r => pure (.next, setTemp env t (W.initialResult r))
  | .copy t u => do
      let v ← getValue env u
      pure (.next, setTemp env t v)
  | .item t source index => do
      let i ← getIndex env index
      let v ← getSource env source
      let x ← W.getElement v i
      pure (.next, setTemp env t x)
  | .skipUnless callback item => do
      let f ← getValue env callback
      let x ← getValue env item
      let b ← W.invoke f [x]
      pure (if W.isTrue b then .next else .continue, env)
  | .map t callback item => do
      let f ← getValue env callback
      let x ← getValue env item
      let y ← W.invoke f [x]
      pure (.next, setTemp env t y)
  | .run callback item => do
      let f ← getValue env callback
      let x ← getValue env item
      let _ ← W.invoke f [x]
      pure (.next, env)
  | .increment t => do
      let v ← getValue env t
      pure (.next, setTemp env t (W.succ v))
  | .found t item => do
      let x ← getValue env item
      pure (.break, setTemp env t (W.pair x (W.ofBool true)))
  | .push destination item => do
      let d ← getValue env destination
      let x ← getValue env item
      W.push d x
      pure (.next, env)
  | .combine t callback item => do
      let f ← getValue env callback
      let acc ← getValue env t
      let x ← getValue env item
      let v ← W.invoke f [acc, x]
      pure (.next, setTemp env t v)
  | .decide t callback item wanted => do
      let f ← getValue env callback
      let x ← getValue env item
      let b ← W.invoke f [x]
      if W.isTrue b = wanted then pure (.break, setTemp env t (W.ofBool wanted))
      else pure (.next, env)

/-- Statements one after the other, up to a `continue` or `break`. -/
def exec (env : Temps V) : List (StreamCode E) → Effect σ (LoopFlow × Temps V)
  | [] => pure (.next, env)
  | statement :: rest => do
      let (flow, env) ← W.execStatement T env statement
      match flow with
      | .next => exec env rest
      | .continue | .break => pure (flow, env)

/-- `for (; index < length; ++index) body`, for a number of turns. -/
def execLoop (L : FusedLoop E) : ℕ → Temps V → Effect σ (Temps V)
  | 0, _ => failure
  | fuel + 1, env => do
      let i ← getIndex env L.index
      let length ← W.getLength env L.source
      if i < length then
        let (flow, env) ← W.exec T env L.body
        match flow with
        | .break => pure env
        | .next | .continue =>
            let i ← getIndex env L.index
            execLoop L fuel (Function.update env L.index (some (.index (i + 1))))
      else pure env

/-- The whole expression; without a result its value is `(void)0`. -/
def run (L : FusedLoop E) : Effect σ (Option V) := do
  let (_, env) ← W.exec T (fun _ ↦ none) L.prologue
  let env : Temps V := Function.update env L.index (some (.index 0))
  let length ← W.getLength env L.source
  let env ← W.execLoop T L (length + 1) env
  match L.result with
  | some t => do
      let v ← getValue env t
      pure (some v)
  | none => pure none

/-! ## What a pipeline means -/

/-- A stage acts on the elements that come to it. -/
def applyStage (xs : Traversal (Effect σ) V) : StageKind × V → Traversal (Effect σ) V
  | (.filter, f) => xs.filter fun x ↦ do
      let b ← W.invoke f [x]
      pure (W.isTrue b)
  | (.map, f) => xs.map fun x ↦ W.invoke f [x]

/-- The callbacks, evaluated in the order of the stages. -/
def evalStages : Stages E → Effect σ (List (StageKind × V))
  | .stream _ => pure []
  | .stage base kind callback => do
      let stages ← evalStages base
      let f ← W.eval callback
      pure (stages ++ [(kind, f)])

/-- The tuple of an element that was found or not. -/
def ofFirst : Option V → V
  | some x => W.pair x (W.ofBool true)
  | none => W.pair W.zero (W.ofBool false)

/-- What the source holds. -/
def contents (source : V) (length : ℕ) : Effect σ (List V) :=
  fun s ↦ some ((List.range length).map (W.element source · s), s)

/-- The elements that come out of the stages. -/
def elements (stages : List (StageKind × V)) (source : V) (length : ℕ) :
    Effect σ (Traversal (Effect σ) V) := do
  let xs ← W.contents source length
  pure (stages.foldl W.applyStage (Traversal.ofList xs))

/-- A terminal operation evaluates its own expressions and takes the elements. -/
def terminalMeaning (elements : Effect σ (Traversal (Effect σ) V)) :
    Terminal E → Effect σ (Option V)
  | .forEach callback => do
      let f ← W.eval callback
      let xs ← elements
      xs.forEach fun x ↦ do
        let _ ← W.invoke f [x]
        pure ()
      pure none
  | .count => do
      let xs ← elements
      let n ← xs.count
      pure (some (W.ofCount n))
  | .first => do
      let xs ← elements
      let found ← xs.first
      pure (some (W.ofFirst found))
  | .any callback => do
      let f ← W.eval callback
      let xs ← elements
      let b ← xs.any fun x ↦ do
        let v ← W.invoke f [x]
        pure (W.isTrue v)
      pure (some (W.ofBool b))
  | .all callback => do
      let f ← W.eval callback
      let xs ← elements
      let b ← xs.all fun x ↦ do
        let v ← W.invoke f [x]
        pure (W.isTrue v)
      pure (some (W.ofBool b))
  | .reduce init callback => do
      let acc ← W.eval init
      let f ← W.eval callback
      let xs ← elements
      let v ← xs.reduce (fun acc x ↦ W.invoke f [acc, x]) acc
      pure (some v)
  | .collect destination => do
      let d ← W.eval destination
      let xs ← elements
      xs.forEach (W.push d)
      pure none

/-- The source, the callbacks and the terminal operation's own values are evaluated
in this order, and then the operation takes the elements of the last stage. -/
def meaning (p : StreamPipeline E) : Effect σ (Option V) := do
  let source ← W.eval p.stages.source
  let stages ← W.evalStages p.stages
  let length := (T.count p.stages.source).getD (W.length source)
  W.terminalMeaning (W.elements stages source length) p.terminal

/-- Calls and pushes leave what a source holds alone. -/
def SourceKept (source : V) : Prop :=
  ∀ contents : ℕ → V,
    (∀ f args, Effect.Keeps (fun s ↦ ∀ i, W.element source i s = contents i) (W.invoke f args)) ∧
      ∀ d x, Effect.Keeps (fun s ↦ ∀ i, W.element source i s = contents i) (W.push d x)

/-- Callbacks and pushes leave the source of a pipeline alone. -/
def LeavesAlone (p : StreamPipeline E) : Prop :=
  ∀ s source s', W.eval p.stages.source s = some (source, s') → W.SourceKept source

end StreamWorld

end TinyCPlus.Compiler
