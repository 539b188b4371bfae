import TinyCPlus.Library.Tally
import TinyCPlus.Library.Transitions

/-!
# Tasks and the shutdown of the scheduler

A generated program runs on its main thread, on the workers of the default pool,
on the reactor thread and on the resolver pool.  What a thread has still to do is
a list of calls of the runtime, in the order of the generated code, of `net.c`
and of `grpc.c`; every call is one step.  Code of the program may do anything it
can do at any time: it begins tasks, completes futures and registers
continuations on them.
-/

namespace TinyCPlus.Runtime

open TinyCPlus.Library

/-- Spawned calls, calls of asynchronous functions, requests to the reactor,
connects, and the jobs of the resolver pool that only compute a result. -/
inductive TaskKind where
  | spawn
  | async
  | request
  | connect
  | job
deriving DecidableEq, Repr

structure Task where
  kind : TaskKind
  id : ℕ
deriving DecidableEq, Repr

/-- The future of a task, or one that the program has created itself. -/
inductive FutureRef where
  | ofTask (t : Task)
  | own (id : ℕ)
deriving DecidableEq, Repr

/-- What `tc_future_then` registers: the step of a suspended task on the default
pool, or an action of the program without a pool. -/
inductive Resumption where
  | resume (t : Task)
  | call
deriving DecidableEq, Repr

/-- Where a task goes once it has begun.  A request that is refused at once or
asks for nothing is answered on the spot. -/
inductive Launch where
  | pool
  | resolver
  | reactor
  | answered
deriving DecidableEq, Repr

inductive Action where
  /-- code of the program outside the bodies of asynchronous functions -/
  | program
  /-- the body of an asynchronous function from its present state on -/
  | step (t : Task)
  | taskBegin (t : Task) (how : Launch)
  | poolSubmit (t : Task)
  | resolverSubmit (t : Task)
  | ioEnqueue (t : Task)
  | connectResolve (t : Task)
  | futureThen (f : FutureRef) (k : Resumption)
  | futureComplete (f : FutureRef)
  /-- a continuation that `tc_future_complete` or `tc_future_then` sets going -/
  | continue (k : Resumption)
  | futureRelease (f : FutureRef)
  | free (t : Task)
  | taskEnd (t : Task)
  /-- the loop of `tc_scheduler_shutdown` -/
  | awaitTasks
  /-- what follows that loop -/
  | poolDestroy
deriving DecidableEq, Repr

namespace Task

/-- `async_finish` -/
def asyncFinish (t : Task) : List Action :=
  [.futureComplete (.ofTask t), .futureRelease (.ofTask t), .taskEnd t, .free t]

/-- `tc_io_complete` -/
def ioComplete (t : Task) : List Action :=
  [.futureComplete (.ofTask t), .futureRelease (.ofTask t), .taskEnd t, .free t]

/-- `tc_spawn_step`, after the function has returned. -/
def spawnFinish (t : Task) : List Action :=
  [.futureComplete (.ofTask t), .futureRelease (.ofTask t), .free t, .taskEnd t]

/-- `tc_grpc_call_job`, `tc_file_job` and `tc_blocking_io_job` -/
def resolverFinish (t : Task) : List Action :=
  [.futureComplete (.ofTask t), .futureRelease (.ofTask t), .free t, .taskEnd t]

/-- The job that a worker of the default pool finds. -/
def poolJob (t : Task) : List Action :=
  if t.kind = .async then [.step t] else .program :: t.spawnFinish

/-- The job that a worker of the resolver pool finds. -/
def resolverJob (t : Task) : List Action :=
  if t.kind = .connect then [.connectResolve t] else t.resolverFinish

end Task

/-- Which kinds of task are launched in which way. -/
def TaskKind.launches : TaskKind → Launch → Bool
  | .spawn, .pool => true
  | .async, .pool => true
  | .request, .reactor => true
  | .request, .answered => true
  | .connect, .resolver => true
  | .job, .resolver => true
  | _, _ => false

/-- What follows `tc_task_begin`. -/
def Launch.code (t : Task) : Launch → List Action
  | .pool => [.poolSubmit t]
  | .resolver => [.resolverSubmit t]
  | .reactor => [.ioEnqueue t]
  | .answered => t.ioComplete

inductive Role where
  | main
  | worker
  | reactor
  | resolver
deriving DecidableEq, Repr

/-- What the program, the system calls and the allocator decide. -/
inductive Choice where
  | go
  | fail
  | leave
  | start (t : Task) (how : Launch)
  | complete (f : FutureRef)
  | call (f : FutureRef)
  | await (f : FutureRef)
  | pass (ready : List Task)

/-- The queues, the continuations that wait and the counter.  `created`, `begun`,
`ended` and `submitted` record what has happened: the frames and requests that
were allocated, the tasks that have begun and ended, and what the default pool
was given. -/
structure Scheduler where
  pending : ℕ
  pool : List Task
  resolver : List Task
  requests : Multiset Task
  completed : List FutureRef
  continuations : List (FutureRef × Resumption)
  passed : Bool
  destroyed : Bool
  created : Multiset Task
  begun : Multiset Task
  ended : Multiset Task
  submitted : List Task

namespace Scheduler

/-- `tc_scheduler_start` -/
def start : Scheduler := ⟨0, [], [], 0, [], [], false, false, 0, 0, 0, []⟩

/-- `tc_task_begin` -/
def taskBegin (s : Scheduler) (t : Task) : Scheduler :=
  { s with pending := s.pending + 1, begun := t ::ₘ s.begun }

/-- The counter after `--tc_pending_tasks`. -/
def decrement (pending : ℕ) : ℕ := if pending = 0 then 2 ^ 64 - 1 else pending - 1

/-- `tc_task_end` -/
def taskEnd (s : Scheduler) (t : Task) : Scheduler :=
  { s with pending := decrement s.pending, ended := t ::ₘ s.ended }

/-- `tc_pool_submit` on the default pool. -/
def poolSubmit (s : Scheduler) (t : Task) : Scheduler :=
  { s with pool := s.pool ++ [t], submitted := s.submitted ++ [t] }

/-- The continuations of a future, in the order of its list. -/
def resumed (f : FutureRef) (waiting : List (FutureRef × Resumption)) : List Action :=
  (waiting.filter fun p ↦ p.1 = f).map fun p ↦ .continue p.2

/-- What an idle thread finds to do. -/
def take (s : Scheduler) : Role → Choice → Option (Scheduler × List Action)
  | .worker, .go =>
      match s.pool with
      | [] => none
      | t :: queue => some ({ s with pool := queue }, t.poolJob)
  | .resolver, .go =>
      match s.resolver with
      | [] => none
      | t :: queue => some ({ s with resolver := queue }, t.resolverJob)
  | .reactor, .pass ready =>
      if ready ≤ s.requests then
        some ({ s with requests := s.requests - ready }, ready.flatMap Task.ioComplete)
      else none
  | _, _ => none

/-- What code of the program does next. -/
def runProgram (s : Scheduler) : Choice → Option (Scheduler × List Action)
  | .start t how =>
      if t ∉ s.created ∧ t.kind.launches how then
        some ({ s with created := t ::ₘ s.created }, [.taskBegin t how])
      else none
  | .complete f => some (s, [.futureComplete f])
  | .call f => some (s, [.futureThen f .call])
  | _ => none

/-- One call of the runtime. -/
def perform (s : Scheduler) : Action → Choice → Option (Scheduler × List Action)
  | .program, .leave => some (s, [])
  | .program, choice => (s.runProgram choice).map fun (s', now) ↦ (s', now ++ [.program])
  | .step t, .leave => some (s, t.asyncFinish)
  | .step t, .await f =>
      if f ∈ s.completed then some (s, [.step t]) else some (s, [.futureThen f (.resume t)])
  | .step t, choice => (s.runProgram choice).map fun (s', now) ↦ (s', now ++ [.step t])
  | .taskBegin t how, .go => some (s.taskBegin t, how.code t)
  | .poolSubmit t, .go => some (s.poolSubmit t, [])
  | .resolverSubmit t, .go => some ({ s with resolver := s.resolver ++ [t] }, [])
  | .ioEnqueue t, .go =>
      if 32 ≤ s.requests.card then some (s, t.ioComplete)
      else some ({ s with requests := t ::ₘ s.requests }, [])
  | .connectResolve t, .go => some (s, [.ioEnqueue t])
  | .connectResolve t, .fail => some (s, t.ioComplete)
  | .futureThen f k, .go =>
      if f ∈ s.completed then some (s, [.continue k])
      else some ({ s with continuations := (f, k) :: s.continuations }, [])
  | .futureComplete f, .go =>
      if f ∈ s.completed then some (s, [])
      else
        some
          ({ s with
              completed := f :: s.completed
              continuations := s.continuations.filter fun p ↦ p.1 ≠ f },
            resumed f s.continuations)
  | .continue (.resume t), .go => some (s.poolSubmit t, [])
  -- the pool has not taken the step, and the thread runs it itself
  | .continue (.resume t), .fail => some (s, [.step t])
  | .continue .call, .go => some (s, [.program])
  | .futureRelease _, .go => some (s, [])
  | .free _, .go => some (s, [])
  | .taskEnd t, .go => some (s.taskEnd t, [])
  | .awaitTasks, .go =>
      if s.pending = 0 then some ({ s with passed := true }, [.poolDestroy]) else none
  | .poolDestroy, .go => some ({ s with destroyed := true }, [])
  | _, _ => none

/-- The next step of a thread. -/
def act (s : Scheduler) (role : Role) (choice : Choice) :
    List Action → Option (Scheduler × List Action)
  | [] => s.take role choice
  | a :: rest => (s.perform a choice).map fun (s', now) ↦ (s', now ++ rest)

end Scheduler

/-- The scheduler and what its threads have to do. -/
structure SchedulerSystem where
  scheduler : Scheduler
  threads : ℕ → List Action

namespace SchedulerSystem

/-- The main thread before `tc_user_main`. -/
def start : SchedulerSystem where
  scheduler := .start
  threads := fun w ↦ if w = 0 then [.program, .awaitTasks] else []

/-- The threads `0, …, n - 1` with their roles take steps in any order. -/
def transitions (n : ℕ) (role : ℕ → Role) : Transitions SchedulerSystem (ℕ × Choice) where
  step s e :=
    if e.1 < n then
      (s.scheduler.act (role e.1) e.2 (s.threads e.1)).map fun (s', code) ↦
        ⟨s', Function.update s.threads e.1 code⟩
    else none

end SchedulerSystem

end TinyCPlus.Runtime
