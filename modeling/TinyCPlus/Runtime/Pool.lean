import TinyCPlus.Library.CondVar
import TinyCPlus.Library.LinkedQueue
import TinyCPlus.Library.Transitions

/-!
# Worker pools (`tc_pool_*` of `concurrent.c`)

A pool with its worker threads, any number of threads that submit jobs (a job
that runs may submit others), and one thread that destroys the pool.  Every
section under the lock is one step, and so is every access to a job outside of
it.  An access to a job that was freed sets `fault`.
-/

namespace TinyCPlus.Runtime

open TinyCPlus.Library

/-- A job and the number of the call of `tc_pool_submit` it came with. -/
structure Submission (J : Type*) where
  call : ℕ
  action : J

structure TcPool (J : Type*) where
  queue : LinkedQueue (Submission J)
  available : CondVar ℕ
  workers : ℕ
  stopping : Bool

/-- Where a worker stands in `pool_worker`: before `mutex_lock`, in
`cond_wait`, behind `mutex_unlock` with the cell `job`, in the action of that
job, or behind the loop. -/
inductive WorkerState (J : Type*) where
  | ready
  | waiting
  | took (job : ℕ) (x : Submission J)
  | running (job : ℕ) (x : Submission J)
  | exited

/-- Where `tc_pool_destroy` stands; `joining i` waits for the worker `i`. -/
inductive DestroyState where
  | idle
  | joining (i : ℕ)
  | returned
deriving DecidableEq

inductive PoolOutcome (J : Type*) where
  | accepted (x : Submission J)
  | refused (call code : ℕ)
  | dequeued (x : Submission J)
  | started (x : Submission J)
  | finished (x : Submission J)
  | left (w : ℕ)

structure PoolSystem (J : Type*) where
  pool : TcPool J
  worker : ℕ → WorkerState J
  destroyer : DestroyState
  calls : ℕ
  history : List (PoolOutcome J)
  fault : Bool

inductive PoolEvent (J : Type*) where
  | submit (address : Option ℕ) (action : Option J) (chosen : Multiset ℕ)
  | work (w : ℕ)
  | resume (w : ℕ)
  | destroy
  | join
  | wake (w : ℕ)

namespace PoolSystem

variable {J : Type*}

/-- `tc_pool_create` -/
def create (workers : ℤ) : Option (PoolSystem J) :=
  if workers < 1 ∨ 256 < workers then none
  else some ⟨⟨.empty, .empty, workers.toNat, false⟩, fun _ ↦ .ready, .idle, 0, [], false⟩

def record (s : PoolSystem J) (x : PoolOutcome J) : PoolSystem J :=
  { s with history := s.history ++ [x] }

def setWorker (s : PoolSystem J) (w : ℕ) (state : WorkerState J) : PoolSystem J :=
  { s with worker := Function.update s.worker w state }

/-- `tc_pool_submit` returns an error. -/
def refuse (s : PoolSystem J) (code : ℕ) : PoolSystem J :=
  { s with calls := s.calls + 1 }.record (.refused s.calls code)

/-- `tc_pool_submit`: `address` is what `malloc` returns, and `chosen` is whom
the signal wakes. -/
def submit (s : PoolSystem J) (address : Option ℕ) (action : Option J) (chosen : Multiset ℕ) :
    Option (PoolSystem J) :=
  match action, address with
  | none, _ => some (s.refuse 1)
  | some _, none => some (s.refuse 2)
  | some action, some job =>
      let x : Submission J := ⟨s.calls, action⟩
      if (s.pool.queue.cells job).isSome then none
      else if s.pool.stopping then some (s.refuse 3)
      else
        match s.pool.queue.enqueue job x with
        | none => some { s with fault := true }
        | some queue =>
            (s.pool.available.signal chosen).map fun available ↦
              { s with
                pool := { s.pool with queue := queue, available := available }
                calls := s.calls + 1 }.record (.accepted x)

/-- The section of `pool_worker` under the lock, from the loop condition on. -/
def poolWorker (s : PoolSystem J) (w : ℕ) : PoolSystem J :=
  if s.pool.queue.head = none ∧ s.pool.stopping = false then
    { s with pool := { s.pool with available := s.pool.available.wait w } }.setWorker w .waiting
  else if s.pool.queue.head = none then (s.setWorker w .exited).record (.left w)
  else
    match s.pool.queue.dequeue with
    | none => { s with fault := true }
    | some ((job, x), queue) =>
        ({ s with pool := { s.pool with queue := queue } }.setWorker w (.took job x)).record
          (.dequeued x)

/-- A worker reads its job and calls the action. -/
def runJob (s : PoolSystem J) (w job : ℕ) : PoolSystem J :=
  match s.pool.queue.cells job with
  | none => { s with fault := true }
  | some cell => (s.setWorker w (.running job cell.value)).record (.started cell.value)

/-- The action has returned, and the worker frees the job. -/
def freeJob (s : PoolSystem J) (w job : ℕ) (x : Submission J) : PoolSystem J :=
  match s.pool.queue.cells job with
  | none => { s with fault := true }
  | some _ =>
      ({ s with pool := { s.pool with queue := s.pool.queue.free job } }.setWorker w .ready).record
        (.finished x)

/-- `tc_pool_destroy` up to the first join. -/
def destroy (s : PoolSystem J) : PoolSystem J :=
  { s with
    pool := { s.pool with stopping := true, available := s.pool.available.broadcast }
    destroyer := .joining 0 }

/-- `tc_pool_destroy` joins the next worker, or returns after the last one. -/
def join (s : PoolSystem J) (i : ℕ) : Option (PoolSystem J) :=
  if i < s.pool.workers then
    match s.worker i with
    | .exited => some { s with destroyer := .joining (i + 1) }
    | .ready | .waiting | .took _ _ | .running _ _ => none
  else some { s with destroyer := .returned }

/-- A step of a worker on its own. -/
def workerStep (s : PoolSystem J) (w : ℕ) : Option (PoolSystem J) :=
  match s.worker w with
  | .ready => some (s.poolWorker w)
  | .took job _ => some (s.runJob w job)
  | .running job x => some (s.freeJob w job x)
  | .waiting | .exited => none

/-- The steps of the system.  Nobody submits a job when the pool is gone. -/
def transitions (J : Type*) : Transitions (PoolSystem J) (PoolEvent J) where
  step s
    | .submit address action chosen =>
        match s.destroyer with
        | .returned => none
        | .idle | .joining _ => s.submit address action chosen
    | .work w => if w < s.pool.workers then s.workerStep w else none
    | .resume w =>
        (s.pool.available.resume w).map fun available ↦
          { s with pool := { s.pool with available := available } }.poolWorker w
    | .destroy =>
        match s.destroyer with
        | .idle => some s.destroy
        | .joining _ | .returned => none
    | .join =>
        match s.destroyer with
        | .joining i => s.join i
        | .idle | .returned => none
    | .wake w =>
        (s.pool.available.spurious w).map fun available ↦
          { s with pool := { s.pool with available := available } }

end PoolSystem

end TinyCPlus.Runtime
