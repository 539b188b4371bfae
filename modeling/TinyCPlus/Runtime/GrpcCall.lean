import TinyCPlus.Runtime.GrpcStreams

/-!
# Calls of `runtime/grpc.c`

`tc_grpc_exchange`, which hands bytes to the session and takes bytes from it until the
connection ends, and `tc_grpc_call`, which does so for one request.  What the sockets, the
clock and the session do in a turn of the loop is part of the turn.
-/

namespace TinyCPlus.Runtime

/-- `tc_cstring`: a text with a zero byte is no C string. -/
def cstring (s : List UInt8) : Option (List UInt8) :=
  if (0 : UInt8) ∈ s then none else some s

/-! ## Exchanging -/

/-- What `tc_wait_socket` and `recv` come to in a turn; `accepted` tells that
`nghttp2_session_mem_recv2` succeeds, and the callbacks are those it makes. -/
inductive Arrival (ω : Type*) where
  | waitFailed
  | notReady
  | ended
  | wouldBlock
  | failed
  | received (calls : List (Callback ω)) (accepted : Bool)

/-- One turn of the loop: the callbacks that `tc_grpc_flush` leads to, what it returns,
whether the server is stopping, whether the deadline has passed, and what arrives. -/
structure Turn (ω : Type*) where
  sending : List (Callback ω)
  flush : ℤ
  stopping : Bool
  late : Bool
  arrival : Arrival ω

namespace TcGrpcConnection

variable {ω : Type*}

/-- One turn of the loop of `tc_grpc_exchange`, the replies to its callbacks, and whether
it goes on. -/
def turn (c : TcGrpcConnection ω) (t : Turn ω) : TcGrpcConnection ω × List (ℤ × Reply) × Bool :=
  let sent := c.run t.sending
  let c := { sent.1 with error := t.flush }
  if c.error ≠ 0 then (c, sent.2, false)
  else if c.server.isSome ∧ t.stopping then (c, sent.2, false)
  else if t.late then ({ c with error := 4 }, sent.2, false)
  else
    match t.arrival with
    | .waitFailed => ({ c with error := 14 }, sent.2, false)
    | .notReady => (c, sent.2, true)
    | .ended =>
        (if c.server.isNone ∧ c.finished = false then { c with error := 14 } else c, sent.2, false)
    | .wouldBlock => (c, sent.2, true)
    | .failed => ({ c with error := 14 }, sent.2, false)
    | .received calls accepted =>
        let taken := c.run calls
        if accepted then (taken.1, sent.2 ++ taken.2, true)
        else ({ taken.1 with error := 13 }, sent.2 ++ taken.2, false)

/-- The loop of `tc_grpc_exchange`, if it ends with the given turns. -/
def turns (c : TcGrpcConnection ω) :
    List (Turn ω) → Option (TcGrpcConnection ω × List (ℤ × Reply))
  | [] => if c.finished ∨ c.error ≠ 0 then some (c, []) else none
  | t :: rest =>
      if c.finished ∨ c.error ≠ 0 then some (c, [])
      else
        let next := c.turn t
        if next.2.2 then (turns next.1 rest).map fun last ↦ (last.1, next.2.1 ++ last.2)
        else some (next.1, next.2.1)

/-- `tc_grpc_exchange`; `final` are the callbacks of the flush at the end. -/
def exchange (c : TcGrpcConnection ω) (turns : List (Turn ω)) (final : List (Callback ω)) :
    Option (TcGrpcConnection ω × List (ℤ × Reply)) :=
  (c.turns turns).map fun last ↦
    if last.1.error = 0 then ((last.1.run final).1, last.2 ++ (last.1.run final).2) else last

end TcGrpcConnection

/-! ## Calling -/

/-- `"%d"` -/
def decimal (n : ℤ) : List UInt8 := ascii (toString n)

/-- The authority of a call, `"[%s]:%d"` for a host with a colon and `"%s:%d"` otherwise. -/
def authority (host : List UInt8) (port : ℤ) : List UInt8 :=
  if (58 : UInt8) ∈ host then [91] ++ host ++ [93, 58] ++ decimal port
  else host ++ [58] ++ decimal port

/-- The headers of a request. -/
def requestHeaders (host : List UInt8) (port : ℤ) (path : List UInt8) :
    List (List UInt8 × List UInt8) :=
  [(ascii ":method", ascii "POST"), (ascii ":scheme", ascii "http"),
    (ascii ":authority", authority host port), (ascii ":path", path),
    (ascii "content-type", ascii "application/grpc"), (ascii "te", ascii "trailers")]

/-- What a call meets outside: the result of `tc_grpc_connect`, whether `tc_grpc_session`
succeeds, the result of `nghttp2_submit_request2`, and the exchange. -/
structure CallWorld (ω : Type*) where
  connect : ℤ
  session : Bool
  id : ℤ
  turns : List (Turn ω)
  final : List (Callback ω)

variable {ω : Type*}

/-- The connection of a call when its request has been submitted. -/
def callConnection (id : ℤ) (packed : TcGrpcBuffer) : TcGrpcConnection ω :=
  ⟨none, [{ TcGrpcStream.create id with outgoing := packed }],
    false, if id < 0 then 13 else 0⟩

/-- The end of `tc_grpc_call`: the response that a connection and its stream come to. -/
def callResult (error : ℤ) (s : TcGrpcStream) : TcGrpcResponse :=
  let status :=
    if error ≠ 0 then error
    else if s.http_status ≠ 200 then 14
    else if s.grpc_type = false ∨ s.have_status = false then 2
    else s.status
  let decoded := if status = 0 then s.incoming.unpack else (status, [])
  grpcResponse (if decoded.1 ≠ 0 then [] else decoded.2) decoded.1

/-- `tc_grpc_call`, if its exchange ends: the headers it submits, the replies of its
callbacks, and its response. -/
def call (w : CallWorld ω) (host : List UInt8) (port : ℤ) (method request : List UInt8) :
    Option (List (List UInt8 × List UInt8) × List (ℤ × Reply) × TcGrpcResponse) :=
  match cstring host, cstring method with
  | some hostname, some path =>
      if path.getD 0 0 ≠ 47 ∨ grpcLimit < request.length then some ([], [], grpcResponse [] 3)
      else if 512 ≤ (authority hostname port).length then some ([], [], grpcResponse [] 3)
      else if w.connect ≠ 0 then some ([], [], grpcResponse [] w.connect)
      else if w.session = false then some ([], [], grpcResponse [] 13)
      else
        let packed := TcGrpcBuffer.empty.pack request
        if packed.2 ≠ 0 then some ([], [], grpcResponse [] 8)
        else
          let headers := requestHeaders hostname port path
          let c := callConnection w.id packed.1
          if w.id < 0 then
            some (headers, [], callResult c.error (c.streams.headD (.create w.id)))
          else
            (c.exchange w.turns w.final).map fun last ↦
              (headers, last.2, callResult last.1.error (last.1.streams.headD (.create w.id)))
  | _, _ => some ([], [], grpcResponse [] 3)

end TinyCPlus.Runtime
