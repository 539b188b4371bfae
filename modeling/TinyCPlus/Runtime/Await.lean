import TinyCPlus.Library.Transitions

/-!
# Awaiting a future (`N_AWAIT` of `cgen.c`, `tc_future_*` of `concurrent.c`)

An await keeps its future in the frame of the async function, and the function
goes on at a label when the future is complete.  Whether the await takes a
reference of its own is decided by the form of its operand.

Every call of the runtime is one step.  Futures are named by `H` and frames by
`ι`; the code that is not part of an await, in any thread, may do anything to
any future.
-/

namespace TinyCPlus.Runtime

open TinyCPlus.Library

/-- The kinds of expression nodes that can have the type of a task. -/
inductive OperandKind where
  | id | member | index | unary | binary | cast | call | new | await | spawn
deriving DecidableEq

inductive OperandType where
  | named (name : String) (items : List OperandType)
  | other

/-- The operand of an await; `text` is the operator, and `getter` says that
the name resolves to a computed property. -/
structure Operand where
  kind : OperandKind
  text : String
  getter : Bool
  type : OperandType

inductive Ownership where
  | stored | temporary
deriving DecidableEq

namespace Operand

/-- The case `N_AWAIT` of `check_expr`. -/
def check (asynchronous : Bool) (a : Operand) : Except String OperandType :=
  if asynchronous then
    match a.type with
    | .named name (item :: _) =>
        if name = "Task" ∨ name = "Future" then .ok item
        else .error "await requires Task<T> or Future<T>"
    | _ => .error "await requires Task<T> or Future<T>"
  else .error "await is only valid inside an async function"

/-- What stands where the task is read: a place that keeps it or a value that
nobody else has. -/
def denotes (a : Operand) : Option Ownership :=
  match a.kind with
  | .id | .member => if a.getter then none else some .stored
  | .index => some .stored
  | .unary => if a.text = "*" then some .stored else none
  | .call | .spawn => some .temporary
  | .binary | .cast | .new | .await => none

/-- The test of `N_AWAIT` that decides about the retain. -/
def retained (a : Operand) : Bool :=
  a.kind = .id || a.kind = .member

end Operand

/-- The statements of an await, and the jump that its `if` makes. -/
inductive AwaitCode where
  | hold
  | retain
  | state (k : ℕ)
  | jumpIfReady (k : ℕ)
  | thenReturn
  | label (k : ℕ)
  | get
  | release
  | clear
  | check
deriving DecidableEq

/-- The lines of `N_AWAIT` after the operand was evaluated. -/
def awaitCode (a : Operand) (k : ℕ) : List AwaitCode :=
  .hold :: ((if a.retained then [.retain] else []) ++
    [.state k, .jumpIfReady k, .thenReturn, .label k, .get, .release, .clear, .check])

/-- `goto` inside the code of one await. -/
def AwaitCode.goto (k : ℕ) (code : List AwaitCode) : List AwaitCode :=
  code.dropWhile (· ≠ .label k)

/-- The awaits of an async function that was accepted, in the order of their states. -/
structure AsyncFunction where
  awaits : List Operand
  checked : ∀ a ∈ awaits, ∃ type, a.check true = .ok type

/-- The place that the switch at the beginning of a step function jumps to. -/
def AsyncFunction.resume (f : AsyncFunction) : ℕ → List AwaitCode
  | 0 => []
  | k + 1 => match f.awaits[k]? with
    | some a => AwaitCode.goto (k + 1) (awaitCode a (k + 1))
    | none => []

/-- The frame of an async function.  `code` is what is left of the await that
goes on, `operand` the value of its operand and `await` its number; `failing`
after an await that took the exit on error. -/
structure AsyncFrame (H : Type*) where
  function : AsyncFunction
  future : H
  state : ℕ
  waiting : Option H
  error : ℤ
  suspended : Bool
  failing : Bool
  code : List AwaitCode
  operand : H
  await : ℕ

structure AwaitedFuture (ι : Type*) where
  created : Bool
  refs : BitVec 64
  complete : Bool
  error : ℤ
  continuations : List ι
  freed : Bool

/-- What became of the references; `w` is the await that did it, if one did. -/
inductive AwaitOutcome (H : Type*) where
  | began (w : ℕ) (a : Operand) (h : H)
  | retained (w : Option ℕ) (h : H)
  | released (w : Option ℕ) (h : H) (last : Bool)
  | ended (w : ℕ) (error : ℤ)

structure AwaitSystem (ι H : Type*) where
  futures : H → AwaitedFuture ι
  frames : ι → Option (AsyncFrame H)
  jobs : List ι
  awaits : ℕ
  history : List (AwaitOutcome H)
  fault : Bool
  aborted : Bool

inductive AwaitEvent (ι H : Type*) where
  | create (h : H)
  | call (i : ι) (f : AsyncFunction) (h : H)
  | retain (h : H)
  | release (h : H)
  | complete (h : H) (error : ℤ)
  | read (h : H)
  | evaluate (i : ι) (k : ℕ) (h : H)
  | exec (i : ι) (allocated : Bool)
  | runJob (i : ι)
  | finish (i : ι) (error : ℤ)

namespace AwaitSystem

variable {ι H : Type*}

def initial : AwaitSystem ι H :=
  ⟨fun _ ↦ ⟨false, 0, false, 0, [], false⟩, fun _ ↦ none, [], 0, [], false, false⟩

def record (s : AwaitSystem ι H) (x : AwaitOutcome H) : AwaitSystem ι H :=
  { s with history := s.history ++ [x] }

/-- An access to a future. -/
def touch (s : AwaitSystem ι H) (h : H) : AwaitSystem ι H :=
  if (s.futures h).created && !(s.futures h).freed then s else { s with fault := true }

variable [DecidableEq H]

def setFuture (s : AwaitSystem ι H) (h : H) (x : AwaitedFuture ι) : AwaitSystem ι H :=
  { s with futures := Function.update s.futures h x }

/-- `tc_future_create`. -/
def create (s : AwaitSystem ι H) (h : H) : AwaitSystem ι H :=
  (s.setFuture h ⟨true, 1, false, 0, [], false⟩).record (.retained none h)

/-- `tc_future_retain`. -/
def retain (s : AwaitSystem ι H) (w : Option ℕ) (h : H) : AwaitSystem ι H :=
  let x := s.futures h
  ((s.touch h).setFuture h { x with refs := x.refs + 1 }).record (.retained w h)

/-- `tc_future_release`. -/
def release (s : AwaitSystem ι H) (w : Option ℕ) (h : H) : AwaitSystem ι H :=
  let x := s.futures h
  let refs := x.refs - 1
  let released :=
    if refs = 0 then { x with refs := refs, continuations := [], freed := true }
    else { x with refs := refs }
  ((s.touch h).setFuture h released).record (.released w h (refs = 0))

/-- `tc_future_complete`; the continuations are submitted to the pool. -/
def complete (s : AwaitSystem ι H) (h : H) (error : ℤ) : AwaitSystem ι H :=
  let x := s.futures h
  if x.complete then s.touch h
  else
    { (s.touch h).setFuture h { x with complete := true, error := error, continuations := [] } with
      jobs := s.jobs ++ x.continuations }

/-- `tc_future_then` for the step function of a frame, with an allocated continuation. -/
def thenDo (s : AwaitSystem ι H) (i : ι) (h : H) : AwaitSystem ι H :=
  let x := s.futures h
  if x.complete then { s.touch h with jobs := s.jobs ++ [i] }
  else (s.touch h).setFuture h { x with continuations := i :: x.continuations }

section Effects

variable (s : AwaitSystem ι H) (w : Option ℕ) (h : H)

omit [DecidableEq H] in
theorem touch_eq : s.touch h = { s with fault := (s.touch h).fault } := by
  unfold touch
  split <;> rfl

omit [DecidableEq H] in
@[simp] theorem touch_futures : (s.touch h).futures = s.futures := by rw [touch_eq]

omit [DecidableEq H] in
@[simp] theorem touch_frames : (s.touch h).frames = s.frames := by rw [touch_eq]

omit [DecidableEq H] in
@[simp] theorem touch_jobs : (s.touch h).jobs = s.jobs := by rw [touch_eq]

omit [DecidableEq H] in
@[simp] theorem touch_awaits : (s.touch h).awaits = s.awaits := by rw [touch_eq]

omit [DecidableEq H] in
@[simp] theorem touch_history : (s.touch h).history = s.history := by rw [touch_eq]

theorem retain_futures : (s.retain w h).futures =
    Function.update s.futures h { s.futures h with refs := (s.futures h).refs + 1 } := by
  simp [retain, record, setFuture]

theorem release_futures : (s.release w h).futures = Function.update s.futures h
    (if (s.futures h).refs - 1 = 0 then
      { s.futures h with refs := (s.futures h).refs - 1, continuations := [], freed := true }
    else { s.futures h with refs := (s.futures h).refs - 1 }) := by
  simp [release, record, setFuture]

@[simp] theorem retain_frames : (s.retain w h).frames = s.frames := touch_frames s h

@[simp] theorem retain_jobs : (s.retain w h).jobs = s.jobs := touch_jobs s h

@[simp] theorem retain_awaits : (s.retain w h).awaits = s.awaits := touch_awaits s h

@[simp] theorem retain_history : (s.retain w h).history =
    s.history ++ [.retained w h] := by
  simp [retain, record, setFuture]

@[simp] theorem release_frames : (s.release w h).frames = s.frames := touch_frames s h

@[simp] theorem release_jobs : (s.release w h).jobs = s.jobs := touch_jobs s h

@[simp] theorem release_awaits : (s.release w h).awaits = s.awaits := touch_awaits s h

@[simp] theorem release_history : (s.release w h).history =
    s.history ++ [.released w h ((s.futures h).refs - 1 = 0)] := by
  simp [release, record, setFuture]

@[simp] theorem complete_frames (error : ℤ) : (s.complete h error).frames = s.frames := by
  simp only [complete]
  split <;> simp [setFuture]

@[simp] theorem complete_awaits (error : ℤ) : (s.complete h error).awaits = s.awaits := by
  simp only [complete]
  split <;> simp [setFuture]

@[simp] theorem complete_history (error : ℤ) : (s.complete h error).history = s.history := by
  simp only [complete]
  split <;> simp [setFuture]

theorem complete_created (error : ℤ) (h' : H) :
    ((s.complete h error).futures h').created = (s.futures h').created := by
  simp only [complete]
  split
  · rw [touch_futures]
  · by_cases hsame : h' = h <;> simp [setFuture, hsame]

@[simp] theorem thenDo_frames (i : ι) : (s.thenDo i h).frames = s.frames := by
  simp only [thenDo]
  split <;> simp [setFuture]

@[simp] theorem thenDo_awaits (i : ι) : (s.thenDo i h).awaits = s.awaits := by
  simp only [thenDo]
  split <;> simp [setFuture]

@[simp] theorem thenDo_history (i : ι) : (s.thenDo i h).history = s.history := by
  simp only [thenDo]
  split <;> simp [setFuture]

end Effects

variable [DecidableEq ι]

def setFrame (s : AwaitSystem ι H) (i : ι) (x : Option (AsyncFrame H)) : AwaitSystem ι H :=
  { s with frames := Function.update s.frames i x }
section SetFrame

variable (s : AwaitSystem ι H) (i : ι) (x : Option (AsyncFrame H))

omit [DecidableEq H] in
@[simp] theorem setFrame_frames : (s.setFrame i x).frames = Function.update s.frames i x := rfl

omit [DecidableEq H] in
@[simp] theorem setFrame_futures : (s.setFrame i x).futures = s.futures := rfl

omit [DecidableEq H] in
@[simp] theorem setFrame_history : (s.setFrame i x).history = s.history := rfl

omit [DecidableEq H] in
@[simp] theorem setFrame_awaits : (s.setFrame i x).awaits = s.awaits := rfl

end SetFrame

/-- One statement of an await; a frame that waits for no future has none to
pass to the runtime. -/
def exec (s : AwaitSystem ι H) (i : ι) (f : AsyncFrame H) (c : AwaitCode) (code : List AwaitCode)
    (allocated : Bool) : Option (AwaitSystem ι H) :=
  let next := { f with code := code }
  match c, f.waiting with
  | .hold, _ => some (s.setFrame i (some { next with waiting := some f.operand }))
  | .state k, _ => some (s.setFrame i (some { next with state := k }))
  | .label _, _ => some (s.setFrame i (some next))
  | .clear, _ => some (s.setFrame i (some { next with waiting := none }))
  | .check, _ =>
      let failing := f.failing || f.error ≠ 0
      some ((s.setFrame i (some { next with failing := failing })).record (.ended f.await f.error))
  | .retain, some h => some ((s.setFrame i (some next)).retain (some f.await) h)
  | .release, some h => some ((s.setFrame i (some next)).release (some f.await) h)
  | .jumpIfReady k, some h =>
      let next := if (s.futures h).complete then { f with code := AwaitCode.goto k code } else next
      some ((s.touch h).setFrame i (some next))
  | .thenReturn, some h =>
      if allocated then
        some ((s.setFrame i (some { f with code := [], suspended := true })).thenDo i h)
      else some { s with aborted := true }
  | .get, some h =>
      if (s.futures h).complete then
        some ((s.touch h).setFrame i (some { next with error := (s.futures h).error }))
      else none
  | .retain, none | .release, none | .jumpIfReady _, none | .thenReturn, none | .get, none => none

/-- An async function that is called: its frame, its future with one reference
for the caller and one for the frame, and a job that runs the step function. -/
def call (s : AwaitSystem ι H) (i : ι) (f : AsyncFunction) (h : H) : AwaitSystem ι H :=
  let frame : AsyncFrame H := ⟨f, h, 0, none, 0, true, false, [], h, 0⟩
  let created := (s.create h).retain none h
  { created.setFrame i (some frame) with jobs := created.jobs ++ [i] }

/-- The operand of the await of state `k + 1` was evaluated to `h`. -/
def evaluate (s : AwaitSystem ι H) (i : ι) (f : AsyncFrame H) (k : ℕ) (a : Operand) (h : H) :
    AwaitSystem ι H :=
  let next := { f with code := awaitCode a (k + 1), operand := h, await := s.awaits }
  { s.setFrame i (some next) with awaits := s.awaits + 1 }.record (.began s.awaits a h)

/-- The pool runs the step function of a frame. -/
def runJob (s : AwaitSystem ι H) (i : ι) (f : AsyncFrame H) : AwaitSystem ι H :=
  let next := { f with suspended := false, code := f.function.resume f.state }
  { s.setFrame i (some next) with jobs := s.jobs.erase i }

/-- `async_finish` at the end, at a return or at the exit on error. -/
def finish (s : AwaitSystem ι H) (i : ι) (f : AsyncFrame H) (error : ℤ) : AwaitSystem ι H :=
  let error := if f.failing then f.error else error
  ((s.complete f.future error).release none f.future).setFrame i none

/-- The steps of the system.  A future and a frame are new when they are made,
and nobody has the handle of a future that was not created. -/
def transitions (ι H : Type*) [DecidableEq ι] [DecidableEq H] :
    Transitions (AwaitSystem ι H) (AwaitEvent ι H) where
  step s e :=
    if s.aborted then none
    else match e with
    | .create h => if (s.futures h).created then none else some (s.create h)
    | .call i f h =>
        if (s.futures h).created || (s.frames i).isSome then none else some (s.call i f h)
    | .retain h => if (s.futures h).created then some (s.retain none h) else none
    | .release h => if (s.futures h).created then some (s.release none h) else none
    | .complete h error => if (s.futures h).created then some (s.complete h error) else none
    | .read h => if (s.futures h).created then some (s.touch h) else none
    | .evaluate i k h => (s.frames i).bind fun f ↦ (f.function.awaits[k]?).bind fun a ↦
        if !f.suspended && f.code.isEmpty && (s.futures h).created then
          some (s.evaluate i f k a h)
        else none
    | .exec i allocated => (s.frames i).bind fun f ↦
        match f.suspended, f.code with
        | false, c :: code => s.exec i f c code allocated
        | _, _ => none
    | .runJob i => (s.frames i).bind fun f ↦ if i ∈ s.jobs then some (s.runJob i f) else none
    | .finish i error => (s.frames i).bind fun f ↦
        if !f.suspended && f.code.isEmpty then some (s.finish i f error) else none

end AwaitSystem

end TinyCPlus.Runtime
