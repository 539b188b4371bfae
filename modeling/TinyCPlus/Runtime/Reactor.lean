import TinyCPlus.Library.Transitions

/-!
# Requests to the reactor (`tc_io_*` of `net.c`)

A request is created by a call of the program, is answered on the spot, refused
by the full queue, resolved by a job of the resolver pool or listed for the
reactor, and in the end it is completed and freed.  A step is a critical section
or a call of the runtime that other threads can notice.  Clock, tokens, readiness
and the results of the system calls are up to the event.
-/

namespace TinyCPlus.Runtime

open TinyCPlus.Library

inductive TcIoKind where
  | read
  | write
  | accept
  | connect
  | timer
deriving DecidableEq, Repr

/-- A `TcIoRequest`.  `data` are the bytes of a write; `handed` records what `send`
has taken of them, and `stopped` that a `send` has returned 0. -/
structure TcIoRequest where
  kind : TcIoKind
  error : ℤ
  done : Bool
  socket : ℤ
  token : Bool
  length : ℕ
  offset : ℕ
  deadline : ℕ
  result : ℤ
  data : List UInt8
  handed : List UInt8
  stopped : Bool
deriving DecidableEq, Repr

/-- Who has a request: nobody yet, the call that has created it, its resolver job,
`tc_io_enqueue`, the list of the reactor, the requests that the reactor has
unlinked, one of the four calls of `tc_io_complete`, or nobody any more. -/
inductive RequestPoint where
  | absent
  | created
  | resolving
  | enqueuing
  | listed
  | unlinked
  | completing
  | releasing
  | ending
  | freeing
  | freed
deriving DecidableEq, Repr

inductive RequestEvent where
  | begun
  | completed (result error : ℤ)
  | ended
  | freed
deriving DecidableEq, Repr

/-- A request, who has it, and what has happened to its future, its task and its
memory. -/
structure RequestSlot where
  request : TcIoRequest
  point : RequestPoint
  log : List RequestEvent
deriving DecidableEq, Repr

/-- What a pass finds for a request: its token, its readiness and the results of the
system call made for it. -/
structure Verdict where
  cancelled : Bool
  ready : Bool
  status : ℤ
  accepted : Option ℤ
  transferred : Option ℕ
  wouldBlock : Bool

namespace TcIoRequest

def intMax : ℕ := 2 ^ 31 - 1

def fdSetSize : ℤ := 1024

def uint64Max : ℕ := 2 ^ 64 - 1

/-- The request of `tc_io_new`. -/
def new (kind : TcIoKind) (socket : ℤ) (data : List UInt8) (length timeout now : ℕ)
    (token : Bool) : TcIoRequest where
  kind := kind
  error := 0
  done := false
  socket := socket
  token := token
  length := length
  offset := 0
  deadline :=
    if timeout = 0 then 0 else if timeout > uint64Max - now then uint64Max else now + timeout
  result := 0
  data := data
  handed := []
  stopped := false

/-- The check of `tc_socket_async`. -/
def valid (r : TcIoRequest) (nonblock : Bool) : Bool :=
  0 ≤ r.socket ∧ r.length ≤ uint64Max ∧ nonblock ∧ r.socket < fdSetSize

/-- How much a `recv` or a `send` is asked for. -/
def chunk (r : TcIoRequest) : ℕ := min (r.length - r.offset) intMax

def fail (r : TcIoRequest) (error : ℤ) : TcIoRequest := { r with error := error, done := true }

/-- The system call has transferred `n` bytes. -/
def moved (r : TcIoRequest) (n : ℕ) : TcIoRequest :=
  { r with
    offset := r.offset + n
    handed := if r.kind = .write then r.handed ++ (r.data.drop r.offset).take n else r.handed
    stopped := r.stopped || n = 0 }

/-- The request behind a `recv` or a `send` that returned `n`. -/
def transfer (r : TcIoRequest) (n : ℕ) : TcIoRequest :=
  if r.kind = .read ∨ (r.moved n).offset = r.length ∨ n = 0 then
    { r.moved n with result := (r.moved n).offset, done := true }
  else r.moved n

/-- What the reactor does with a ready socket. -/
def serve (r : TcIoRequest) (v : Verdict) : TcIoRequest :=
  match r.kind with
  | .connect => { r with result := r.socket, error := v.status, done := true }
  | .accept =>
      match v.accepted with
      | some socket => { r with result := socket, done := true }
      | none => if v.wouldBlock then r else r.fail 13
  | _ =>
      match v.transferred with
      | some n => r.transfer (min n r.chunk)
      | none => if v.wouldBlock then r else r.fail 13

/-- The loop body of `tc_io_loop` for a request. -/
def poll (r : TcIoRequest) (now : ℕ) (v : Verdict) : TcIoRequest :=
  if r.token ∧ v.cancelled then r.fail 1
  else if r.deadline ≠ 0 ∧ r.deadline ≤ now then r.fail (if r.kind = .timer then 0 else 4)
  else if r.kind ≠ .timer ∧ v.ready then r.serve v
  else r

end TcIoRequest

namespace RequestSlot

def absent : RequestSlot := ⟨.new .timer (-1) [] 0 0 0 false, .absent, []⟩

/-- `tc_io_new` -/
def new (r : TcIoRequest) (point : RequestPoint) : RequestSlot := ⟨r, point, [.begun]⟩

def complete (slot : RequestSlot) (error : ℤ) : RequestSlot :=
  { slot with request := { slot.request with error := error }, point := .completing }

/-- The rest of `tc_socket_async`. -/
def check (slot : RequestSlot) (nonblock : Bool) : RequestSlot :=
  let r := slot.request
  if ¬ r.valid nonblock then slot.complete 13
  else if r.length = 0 ∧ (r.kind = .read ∨ r.kind = .write) then
    { slot with point := .completing }
  else { slot with point := .enqueuing }

/-- The next call of `tc_io_complete`. -/
def advance (slot : RequestSlot) : Option RequestSlot :=
  match slot.point with
  | .completing =>
      some { slot with
        point := .releasing
        log := slot.log ++ [.completed slot.request.result slot.request.error] }
  | .releasing => some { slot with point := .ending }
  | .ending => some { slot with point := .freeing, log := slot.log ++ [.ended] }
  | .freeing => some { slot with point := .freed, log := slot.log ++ [.freed] }
  | _ => none

/-- The memory of the request may be read. -/
def allocated (slot : RequestSlot) : Bool := slot.point ≠ .absent ∧ slot.point ≠ .freed

end RequestSlot

/-- What becomes of an address in the loop of `tc_connect_resolve`: there is no
socket for it, its socket is closed again, or its socket is connected or about to
be. -/
inductive AddressOutcome where
  | unavailable
  | refused
  | connected
  | pending
deriving DecidableEq, Repr

inductive ConnectOutcome where
  | failed
  | connected (socket : ℕ)
  | pending (socket : ℕ)
deriving DecidableEq, Repr

/-- The loop of `tc_connect_resolve` from the socket number `s` on: the sockets it
closes, the number of the next socket, and the outcome. -/
def connectLoop (s : ℕ) : List AddressOutcome → List ℕ × ℕ × ConnectOutcome
  | [] => ([], s, .failed)
  | .unavailable :: rest => connectLoop s rest
  | .refused :: rest =>
      let (closed, next, outcome) := connectLoop (s + 1) rest
      (s :: closed, next, outcome)
  | .connected :: _ => ([], s + 1, .connected s)
  | .pending :: _ => ([], s + 1, .pending s)

inductive Resolution where
  | failed (error : ℤ)
  | addresses (outcomes : List AddressOutcome)

/-- Sockets that the runtime opens are numbered: `opened` has the request of each of
them.  `busy` is the request that the reactor completes at the moment, and `fault`
records an access to a request that is not allocated. -/
structure Reactor where
  slots : ℕ → RequestSlot
  next : ℕ
  ioRequests : List ℕ
  ioCount : ℕ
  complete : List ℕ
  busy : Option ℕ
  fault : Bool
  opened : List ℕ
  closed : List ℤ

inductive ReactorEvent where
  | read (handle : ℤ) (capacity timeout now : ℕ) (token : Bool)
  | write (handle : ℤ) (data : List UInt8) (timeout now : ℕ) (token : Bool)
  | accept (handle : ℤ) (timeout now : ℕ) (token : Bool)
  | timer (milliseconds now : ℕ)
  | connect (timeout now : ℕ) (token : Bool)
  | check (id : ℕ) (nonblock : Bool)
  | resolve (id : ℕ) (resolution : Resolution)
  | enqueue (id : ℕ)
  | pass (now : ℕ) (verdict : ℕ → Verdict)
  | take
  | advance (id : ℕ)

namespace Reactor

/-- `tc_io_start` -/
def start : Reactor := ⟨fun _ ↦ .absent, 0, [], 0, [], none, false, [], []⟩

def set (s : Reactor) (id : ℕ) (slot : RequestSlot) : Reactor :=
  { s with slots := Function.update s.slots id slot }

def create (s : Reactor) (r : TcIoRequest) (point : RequestPoint) : Reactor :=
  { s.set s.next (.new r point) with next := s.next + 1 }

/-- The end of a connect whose socket stays behind. -/
def closeSocket (s : Reactor) (slot : RequestSlot) : Reactor :=
  if slot.request.kind = .connect then { s with closed := slot.request.socket :: s.closed } else s

/-- `tc_io_enqueue` -/
def enqueue (s : Reactor) (id : ℕ) : Reactor :=
  let slot := s.slots id
  if 32 ≤ s.ioCount then (s.closeSocket slot).set id (slot.complete 8)
  else
    { s.set id { slot with point := .listed } with
      ioRequests := id :: s.ioRequests
      ioCount := s.ioCount + 1 }

/-- `tc_connect_resolve` -/
def resolve (s : Reactor) (id : ℕ) : Resolution → Reactor
  | .failed error => s.set id ((s.slots id).complete error)
  | .addresses outcomes =>
      let slot := s.slots id
      let (closed, next, outcome) := connectLoop s.opened.length outcomes
      let s' :=
        { s with
          opened := s.opened ++ List.replicate (next - s.opened.length) id
          closed := closed.map (fun k : ℕ ↦ (k : ℤ)) ++ s.closed }
      match outcome with
      | .failed => s'.set id (slot.complete 13)
      | .connected k =>
          s'.set id { slot with
            request := { slot.request with error := 0, socket := k, result := k }
            point := .completing }
      | .pending k =>
          s'.set id { slot with
            request := { slot.request with error := 0, socket := k }
            point := .enqueuing }

/-- The second critical section of `tc_io_loop`: the cursor is behind `kept`. -/
def sweep (now : ℕ) (verdict : ℕ → Verdict) (kept : List ℕ) : List ℕ → Reactor → Reactor
  | [], s => s
  | id :: rest, s =>
      let slot := { s.slots id with request := (s.slots id).request.poll now (verdict id) }
      let s' := { s with fault := s.fault || !(s.slots id).allocated }
      if slot.request.done then
        sweep now verdict kept rest
          { s'.set id { slot with point := .unlinked } with
            ioRequests := kept ++ rest
            complete := id :: s.complete
            ioCount := s.ioCount - 1 }
      else sweep now verdict (kept ++ [id]) rest (s'.set id slot)

/-- The reactor turns to the next request that it has unlinked. -/
def take (s : Reactor) (id : ℕ) (rest : List ℕ) : Reactor :=
  let slot := s.slots id
  let s' := if slot.request.error ≠ 0 then s.closeSocket slot else s
  { s'.set id { slot with point := .completing } with
    complete := rest
    busy := some id
    fault := s.fault || !slot.allocated }

/-- The steps of the program, the resolver pool and the reactor. -/
def transitions : Transitions Reactor ReactorEvent where
  step s
    | .read handle capacity timeout now token =>
        some (s.create (.new .read handle [] capacity timeout now token) .created)
    | .write handle data timeout now token =>
        some (s.create (.new .write handle data data.length timeout now token) .created)
    | .accept handle timeout now token =>
        some (s.create (.new .accept handle [] 0 timeout now token) .created)
    | .timer milliseconds now =>
        let timeout := if milliseconds = 0 then 1 else milliseconds
        some (s.create (.new .timer (-1) [] 0 timeout now false) .enqueuing)
    | .connect timeout now token =>
        some (s.create (.new .connect (-1) [] 0 timeout now token) .resolving)
    | .check id nonblock =>
        if (s.slots id).point = .created then some (s.set id ((s.slots id).check nonblock))
        else none
    | .resolve id (.failed error) =>
        if (s.slots id).point = .resolving ∧ error ≠ 0 then some (s.resolve id (.failed error))
        else none
    | .resolve id (.addresses outcomes) =>
        if (s.slots id).point = .resolving then some (s.resolve id (.addresses outcomes)) else none
    | .enqueue id => if (s.slots id).point = .enqueuing then some (s.enqueue id) else none
    | .pass now verdict =>
        if s.complete = [] ∧ s.busy = none then some (sweep now verdict [] s.ioRequests s) else none
    | .take =>
        match s.complete, s.busy with
        | id :: rest, none => some (s.take id rest)
        | _, _ => none
    | .advance id =>
        (s.slots id).advance.map fun slot ↦
          { s.set id slot with
            busy := if slot.point = .freed ∧ s.busy = some id then none else s.busy }

end Reactor

end TinyCPlus.Runtime
