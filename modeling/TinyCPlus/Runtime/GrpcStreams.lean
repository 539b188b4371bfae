import TinyCPlus.Library.Keyed
import TinyCPlus.Runtime.GrpcMessage

/-!
# Streams and connections of `runtime/grpc.c`

The callbacks that the HTTP/2 session makes on a connection, for a server and for a client.
The session itself is not part of the repository: a callback carries what the session passes
to it, what the session answers to what the callback submits, and the world that a handler
finds, on which its response may depend.  Allocation succeeds.
-/

namespace TinyCPlus.Runtime

open TinyCPlus.Library

/-- The characters of a text of the source, one byte each. -/
def ascii (text : String) : List UInt8 := text.toList.map fun c ↦ UInt8.ofNat c.toNat

/-! ## Responses and routes -/

/-- A `TcGrpcResponse`.  It comes from `tc_grpc_response` only. -/
structure TcGrpcResponse where
  data : List UInt8
  status : ℤ
  length_data : data.length ≤ grpcLimit
  status_nonneg : 0 ≤ status
  status_le : status ≤ 16

/-- `tc_grpc_response` -/
def grpcResponse (data : List UInt8) (status : ℤ) : TcGrpcResponse :=
  if h : grpcLimit < data.length then ⟨[], 8, Nat.zero_le _, by decide, by decide⟩
  else if hstatus : 0 ≤ status ∧ status ≤ 16 then
    ⟨data, status, not_lt.mp h, hstatus.1, hstatus.2⟩
  else ⟨data, 2, not_lt.mp h, by decide, by decide⟩

/-- A `TcGrpcRoute`; the handler is applied to its argument. -/
structure TcGrpcRoute (ω : Type*) where
  path : List UInt8
  handler : List UInt8 → ω → Option TcGrpcResponse

/-- `tc_grpc_server_add` with a handler; the server may be running. -/
def serverAdd {ω : Type*} (running : Bool) (routes : List (TcGrpcRoute ω)) (path : List UInt8)
    (handler : List UInt8 → ω → Option TcGrpcResponse) : List (TcGrpcRoute ω) × ℤ :=
  if path.length = 0 ∨ path.getD 0 0 ≠ 47 ∨ 4096 < path.length ∨ running then (routes, 1)
  else if routes.any fun r ↦ r.path == path then (routes, 2)
  else (⟨path, handler⟩ :: routes, 0)

/-! ## Streams -/

structure TcGrpcStream where
  id : ℤ
  path : List UInt8
  incoming : TcGrpcBuffer
  outgoing : TcGrpcBuffer
  sent : ℕ
  header_bytes : ℕ
  status : ℤ
  have_status : Bool
  http_status : ℤ
  grpc_type : Bool
deriving DecidableEq, Repr

namespace TcGrpcStream

/-- A stream as `calloc` and the assignment to `id` leave it. -/
def create (id : ℤ) : TcGrpcStream :=
  ⟨id, [], .empty, .empty, 0, 0, 0, false, 0, false⟩

end TcGrpcStream

/-- The frames that the callbacks tell apart. -/
inductive FrameType where
  | data
  | headers
  | other
deriving DecidableEq, Repr

/-- What a callback submits to the session. -/
inductive SessionCall where
  | rstStream (id : ℤ) (code : ℕ)
  | response (id : ℤ) (headers : List (List UInt8 × List UInt8))
deriving DecidableEq, Repr

/-- What the session passes to a callback.  `request` tells that the headers of a request
begin, `endStream` is `NGHTTP2_FLAG_END_STREAM`, and `refused` tells that what the callback
submits to the session is refused. -/
inductive Callback (ω : Type*) where
  | begin (id : ℤ) (type : FrameType) (request : Bool)
  | header (id : ℤ) (name value : List UInt8)
  | data (id : ℤ) (chunk : List UInt8)
  | frame (id : ℤ) (type : FrameType) (endStream : Bool) (world : ω) (refused : Bool)
  | closed (id : ℤ) (error : ℕ)
  | read (id : ℤ) (capacity : ℕ) (refused : Bool)

namespace Callback

variable {ω : Type*}

def id : Callback ω → ℤ
  | begin id _ _ => id
  | header id _ _ => id
  | data id _ => id
  | frame id _ _ _ _ => id
  | closed id _ => id
  | read id _ _ => id

end Callback

/-- What a callback gives back: its value, what it has submitted, and for
`tc_grpc_read_data` the rest. -/
structure Reply where
  value : ℤ
  submissions : List SessionCall
  read : Option ReadCall
deriving DecidableEq, Repr

/-- `return 0` -/
def Reply.none : Reply := ⟨0, [], Option.none⟩

/-- `NGHTTP2_ERR_TEMPORAL_CALLBACK_FAILURE` -/
def Reply.failure : Reply := ⟨-521, [], Option.none⟩

/-! ## Headers -/

/-- The value of a digit, `c - '0'`. -/
def digitValue (c : UInt8) : ℤ := c.toNat - 48

/-- The `:status` of three characters. -/
def httpStatus (value : List UInt8) : ℤ :=
  digitValue (value.getD 0 0) * 100 + digitValue (value.getD 1 0) * 10 +
    digitValue (value.getD 2 0)

/-- A content type of gRPC. -/
def isGrpcType (value : List UInt8) : Bool :=
  decide (16 ≤ value.length) && value.take 16 == ascii "application/grpc" &&
    (value.length == 16 || value.getD 16 0 == 43 || value.getD 16 0 == 59)

/-- The loop over the characters of `grpc-status`. -/
def grpcStatusDigits : List UInt8 → ℤ → ℤ
  | [], status => if 16 < status then 2 else status
  | c :: rest, status =>
      if c < 48 ∨ 57 < c then 2 else grpcStatusDigits rest (status * 10 + digitValue c)

/-- The status that a `grpc-status` spells. -/
def grpcStatus (value : List UInt8) : ℤ :=
  if value.length = 0 ∨ 2 < value.length then 2 else grpcStatusDigits value 0

namespace TcGrpcStream

/-- `tc_grpc_header` behind the count of bytes -/
def field (s : TcGrpcStream) (name value : List UInt8) : TcGrpcStream × Reply :=
  if name = ascii ":path" then
    if 4096 < value.length then (s, .failure) else ({ s with path := value }, .none)
  else if name = ascii ":status" then
    (if value.length = 3 then { s with http_status := httpStatus value } else s, .none)
  else if name = ascii "content-type" then ({ s with grpc_type := isGrpcType value }, .none)
  else if name = ascii "grpc-status" then
    ({ s with have_status := true, status := grpcStatus value }, .none)
  else (s, .none)

/-- `tc_grpc_header` -/
def header (s : TcGrpcStream) (name value : List UInt8) : TcGrpcStream × Reply :=
  let s := { s with header_bytes := s.header_bytes + (name.length + value.length) }
  if 16384 < s.header_bytes then (s, .failure) else s.field name value

/-- `tc_grpc_data`; `NGHTTP2_ENHANCE_YOUR_CALM` is 11. -/
def data (s : TcGrpcStream) (chunk : List UInt8) : TcGrpcStream × Reply :=
  let added := s.incoming.add chunk
  if added.2 ≠ 0 then
    ({ s with incoming := added.1, status := 8 }, ⟨0, [.rstStream s.id 11], none⟩)
  else ({ s with incoming := added.1 }, .none)

/-- `tc_grpc_read_data` -/
def read (server : Bool) (s : TcGrpcStream) (capacity : ℕ) (refused : Bool) :
    TcGrpcStream × Reply :=
  let call := readData server ⟨s.outgoing, s.sent, s.status⟩ capacity refused
  ({ s with sent := call.1.sent }, ⟨call.2.value, [], some call.2⟩)

variable {ω : Type*}

/-- The response to what a stream has collected, before it is packed. -/
def respond (routes : List (TcGrpcRoute ω)) (s : TcGrpcStream) (world : ω) : TcGrpcResponse :=
  let unpacked := if s.grpc_type then s.incoming.unpack else (3, [])
  if unpacked.1 = 0 then
    match routes.find? fun r ↦ r.path == s.path with
    | some route => (route.handler unpacked.2 world).getD (grpcResponse [] 13)
    | none => grpcResponse [] 12
  else grpcResponse [] unpacked.1

/-- `tc_grpc_answer`; whether the session refuses the response matters for the connection
only. -/
def answer (routes : List (TcGrpcRoute ω)) (s : TcGrpcStream) (world : ω) :
    TcGrpcStream × Reply :=
  let response := s.respond routes world
  let packed := s.outgoing.pack response.data
  let s :=
    if packed.2 ≠ 0 then
      { s with status := 8, outgoing := ({ packed.1 with length := 0 }.pack []).1 }
    else { s with status := response.status, outgoing := packed.1 }
  (s, ⟨0, [.response s.id
    [(ascii ":status", ascii "200"), (ascii "content-type", ascii "application/grpc")]], none⟩)

end TcGrpcStream

/-! ## Connections -/

/-- A `TcGrpcConnection`; `server` holds the routes if there is a server. -/
structure TcGrpcConnection (ω : Type*) where
  server : Option (List (TcGrpcRoute ω))
  streams : List TcGrpcStream
  finished : Bool
  error : ℤ

namespace TcGrpcConnection

variable {ω : Type*}

/-- `tc_grpc_stream` -/
def stream (c : TcGrpcConnection ω) (id : ℤ) : Option TcGrpcStream :=
  c.streams.find? fun s ↦ s.id == id

/-- A stream is written back to where it was found. -/
def put (c : TcGrpcConnection ω) (id : ℤ) (s : TcGrpcStream) : TcGrpcConnection ω :=
  { c with streams := c.streams.replaceF fun r ↦ if r.id == id then some s else none }

/-- `tc_grpc_begin`, `tc_grpc_header`, `tc_grpc_data`, `tc_grpc_frame`, `tc_grpc_closed` and
`tc_grpc_read_data`.  The last one has its stream from the session; it is the one with the
number of the call. -/
def callback (c : TcGrpcConnection ω) : Callback ω → TcGrpcConnection ω × Reply
  | .begin id type request =>
      if c.server.isSome ∧ type = .headers ∧ request = true then
        ({ c with streams := .create id :: c.streams }, .none)
      else (c, .none)
  | .header id name value =>
      match c.stream id with
      | none => (c, .none)
      | some s => (c.put id (s.header name value).1, (s.header name value).2)
  | .data id chunk =>
      match c.stream id with
      | none => (c, .none)
      | some s => (c.put id (s.data chunk).1, (s.data chunk).2)
  | .frame id type endStream world refused =>
      match c.server with
      | none => (c, .none)
      | some routes =>
          if (type = .data ∨ type = .headers) ∧ endStream = true then
            match c.stream id with
            | none => (c, .none)
            | some s =>
                let c := c.put id (s.answer routes world).1
                (if refused then { c with error := 13 } else c, (s.answer routes world).2)
          else (c, .none)
  | .closed id error =>
      if c.server.isSome then
        ({ c with streams := c.streams.eraseP fun s ↦ s.id == id }, .none)
      else ({ c with finished := true, error := if error ≠ 0 then 13 else c.error }, .none)
  | .read id capacity refused =>
      match c.stream id with
      | none => (c, .none)
      | some s =>
          (c.put id (s.read c.server.isSome capacity refused).1,
            (s.read c.server.isSome capacity refused).2)

/-- The callbacks of a session, with the stream that each reply is for. -/
def run (c : TcGrpcConnection ω) : List (Callback ω) → TcGrpcConnection ω × List (ℤ × Reply)
  | [] => (c, [])
  | call :: rest =>
      let next := c.callback call
      let last := run next.1 rest
      (last.1, (call.id, next.2) :: last.2)

/-- The connection of `tc_grpc_connection_job`. -/
def serve (routes : List (TcGrpcRoute ω)) : TcGrpcConnection ω := ⟨some routes, [], false, 0⟩

end TcGrpcConnection

end TinyCPlus.Runtime
