import TinyCPlus.Library.Transitions

/-!
# Serving (`tc_grpc_server_*` of `grpc.c`)

A server that any number of threads call.  Every operation on one of its atomics
is one step.  What the pool, the sockets and `malloc` answer is up to the event;
`tc_pool_destroy` returns when the connections of the pool have ended.
-/

namespace TinyCPlus.Runtime

open TinyCPlus.Library

/-- The atomics of a `TcGrpcServer`. -/
structure TcGrpcServer where
  running : BitVec 64
  stopping : BitVec 64
  active : BitVec 64
deriving DecidableEq, Repr

/-- Where a call of `tc_grpc_server_serve` stands: behind an add that was not the
first, past the guard, at the loop condition, before the wait, before the load of
`active`, before and behind the add to it, behind a submission that failed, in
`tc_pool_destroy` or before the store. -/
inductive ServePoint where
  | refused
  | entered
  | head
  | listening
  | accepted
  | admitted
  | submitting
  | unsubmitted
  | draining
  | leaving
deriving DecidableEq, Repr

/-- A call of `tc_grpc_server_serve` with the connections that its pool has. -/
structure ServeCall where
  point : ServePoint
  maximum : ℤ
  count : ℕ
  jobs : ℕ
  error : ℕ
deriving DecidableEq, Repr

/-- The call is past its guard. -/
def ServeCall.Past (c : ServeCall) : Prop := c.point ≠ .refused

instance : DecidablePred ServeCall.Past :=
  fun c ↦ inferInstanceAs (Decidable (c.point ≠ .refused))

inductive ServeOutcome where
  | success
  | failure
  | nothing
deriving DecidableEq, Repr

namespace TcGrpcServer

/-- `tc_grpc_server_create` -/
def create : TcGrpcServer := ⟨0, 0, 0⟩

/-- `tc_atomic_add` on `running` -/
def addRunning (s : TcGrpcServer) (v : BitVec 64) : TcGrpcServer :=
  { s with running := s.running + v }

/-- `tc_atomic_add` on `active` -/
def addActive (s : TcGrpcServer) (v : BitVec 64) : TcGrpcServer :=
  { s with active := s.active + v }

@[simp] theorem addRunning_running (s : TcGrpcServer) (v : BitVec 64) :
    (s.addRunning v).running = s.running + v := by
  rw [addRunning]

@[simp] theorem addActive_running (s : TcGrpcServer) (v : BitVec 64) :
    (s.addActive v).running = s.running := by
  rw [addActive]

attribute [irreducible] addRunning addActive

/-- The next step of a call: it goes on or returns a code. -/
def advance (s : TcGrpcServer) (c : ServeCall) (o : ServeOutcome) :
    Option (TcGrpcServer × (ServeCall ⊕ ℕ)) :=
  match c.point, o with
  | .refused, _ => some (s.addRunning (-1), .inr 1)
  | .entered, .success => some (s, .inl { c with point := .head })
  | .entered, .failure => some (s, .inl { c with point := .leaving, error := 8 })
  | .head, _ =>
      if s.stopping = 0 ∧ (c.maximum ≤ 0 ∨ c.count < c.maximum) then
        some (s, .inl { c with point := .listening })
      else some (s, .inl { c with point := .draining })
  | .listening, .nothing => some (s, .inl { c with point := .head })
  | .listening, .failure => some (s, .inl { c with point := .draining, error := 14 })
  | .listening, .success => some (s, .inl { c with point := .accepted })
  | .accepted, o =>
      if 32 ≤ s.active.toInt then some (s, .inl { c with point := .head })
      else if o = .failure then some (s, .inl { c with point := .draining, error := 8 })
      else some (s, .inl { c with point := .admitted })
  | .admitted, _ => some (s.addActive 1, .inl { c with point := .submitting })
  | .submitting, .success =>
      some (s, .inl { c with point := .head, count := c.count + 1, jobs := c.jobs + 1 })
  | .submitting, .failure => some (s, .inl { c with point := .unsubmitted })
  | .unsubmitted, _ =>
      some (s.addActive (-1), .inl { c with point := .draining, error := 8 })
  | .draining, _ => if c.jobs = 0 then some (s, .inl { c with point := .leaving }) else none
  | .leaving, _ => some ({ s with running := 0 }, .inr c.error)
  | .entered, .nothing | .submitting, .nothing => none

end TcGrpcServer

/-- Where `tc_grpc_server_destroy` stands. -/
inductive ServerDestroyer where
  | idle
  | waiting
  | returned
deriving DecidableEq, Repr

/-- A server, the calls of `tc_grpc_server_serve` in progress and the codes that
earlier ones returned. -/
structure ServerSystem where
  server : TcGrpcServer
  calls : Multiset ServeCall
  results : List ℕ
  destroyer : ServerDestroyer
deriving DecidableEq

inductive ServerEvent where
  | serve (maximum : ℤ)
  | step (c : ServeCall) (o : ServeOutcome)
  | connectionEnds (c : ServeCall)
  | stop
  | destroy
  | look

namespace ServerSystem

def create : ServerSystem := ⟨.create, 0, [], .idle⟩

/-- The first operation of `tc_grpc_server_serve`. -/
def serve (s : ServerSystem) (maximum : ℤ) : ServerSystem :=
  let point := if s.server.running ≠ 0 then .refused else .entered
  { s with
    server := s.server.addRunning 1
    calls := ⟨point, maximum, 0, 0, 0⟩ ::ₘ s.calls }

/-- A call has made a step. -/
def settle (s : ServerSystem) (c : ServeCall) (server : TcGrpcServer) :
    ServeCall ⊕ ℕ → ServerSystem
  | .inl c' => { s with server := server, calls := c' ::ₘ s.calls.erase c }
  | .inr code =>
      { s with server := server, calls := s.calls.erase c, results := s.results ++ [code] }

/-- `tc_grpc_connection_job` ends. -/
def connectionEnds (s : ServerSystem) (c : ServeCall) : ServerSystem :=
  { s with
    server := s.server.addActive (-1)
    calls := { c with jobs := c.jobs - 1 } ::ₘ s.calls.erase c }

theorem connectionEnds_server (s : ServerSystem) (c : ServeCall) :
    (s.connectionEnds c).server = s.server.addActive (-1) := rfl

/-- `tc_grpc_server_stop` -/
def stop (s : ServerSystem) : ServerSystem :=
  { s with server := { s.server with stopping := 1 } }

/-- The condition of the wait in `tc_grpc_server_destroy`. -/
def look (s : ServerSystem) : ServerSystem :=
  if s.server.running ≠ 0 then s else { s with destroyer := .returned }

/-- The steps of the system.  Nobody uses the server when it is gone. -/
def transitions : Transitions ServerSystem ServerEvent where
  step s e :=
    match s.destroyer, e with
    | .returned, _ => none
    | _, .serve maximum => some (s.serve maximum)
    | _, .step c o =>
        if c ∈ s.calls then (s.server.advance c o).map fun (server, r) ↦ s.settle c server r
        else none
    | _, .connectionEnds c => if c ∈ s.calls ∧ 0 < c.jobs then some (s.connectionEnds c) else none
    | _, .stop => some s.stop
    | .idle, .destroy => some { s.stop with destroyer := .waiting }
    | .waiting, .destroy => none
    | .waiting, .look => some s.look
    | .idle, .look => none

end ServerSystem

end TinyCPlus.Runtime
