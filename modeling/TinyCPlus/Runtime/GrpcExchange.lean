import TinyCPlus.Runtime.GrpcCall
import TinyCPlus.Runtime.GrpcInterleaving

/-!
# A call is answered by the handler of its path

A client and a server that exchange one request and its response, while other streams run
on the server's connection.  What travels between them is what the one submits and the other
is called back with: headers one by one, and bytes in any parts.
-/

namespace TinyCPlus.Runtime

open TinyCPlus.Library

variable {ω : Type*}

/-! ## Replies -/

/-- What the callbacks have submitted. -/
def submissions (replies : List (ℤ × Reply)) : List SessionCall :=
  replies.flatMap fun o ↦ o.2.submissions

/-- The calls of `tc_grpc_read_data`. -/
def readCalls (replies : List (ℤ × Reply)) : List ReadCall :=
  replies.filterMap fun o ↦ o.2.read

@[simp] theorem submissions_append (a b : List (ℤ × Reply)) :
    submissions (a ++ b) = submissions a ++ submissions b :=
  List.flatMap_append

@[simp] theorem readCalls_append (a b : List (ℤ × Reply)) :
    readCalls (a ++ b) = readCalls a ++ readCalls b :=
  List.filterMap_append

@[simp] theorem submissions_nil : submissions [] = [] := rfl

@[simp] theorem readCalls_nil : readCalls [] = [] := rfl

@[simp] theorem submissions_cons (o : ℤ × Reply) (rest : List (ℤ × Reply)) :
    submissions (o :: rest) = o.2.submissions ++ submissions rest := rfl

theorem readCalls_cons_none {o : ℤ × Reply} (h : o.2.read = none) (rest : List (ℤ × Reply)) :
    readCalls (o :: rest) = readCalls rest :=
  List.filterMap_cons_none h

theorem readCalls_cons_some {o : ℤ × Reply} {r : ReadCall} (h : o.2.read = some r)
    (rest : List (ℤ × Reply)) : readCalls (o :: rest) = r :: readCalls rest :=
  List.filterMap_cons_some h

/-- The session has called until the end of data, and not again. -/
def complete : List ReadCall → Bool
  | [] => false
  | r :: rest => if r.eof = true then rest.isEmpty else complete rest

/-! ## One stream -/

namespace TcGrpcStream

variable (s : TcGrpcStream)

@[simp] theorem sent_header (name value : List UInt8) : (s.header name value).1.sent = s.sent := by
  simp only [header, field, apply_ite Prod.fst, apply_ite sent, ite_self]

@[simp] theorem outgoing_header (name value : List UInt8) :
    (s.header name value).1.outgoing = s.outgoing := by
  simp only [header, field, apply_ite Prod.fst, apply_ite outgoing, ite_self]

theorem header_sent (k : ℕ) (name value : List UInt8) :
    ({ s with sent := k }.header name value).1 = { (s.header name value).1 with sent := k } := by
  simp only [header, field]
  split_ifs <;> rfl

@[simp] theorem sent_data (chunk : List UInt8) : (s.data chunk).1.sent = s.sent := by
  rw [data]
  split <;> rfl

@[simp] theorem outgoing_data (chunk : List UInt8) :
    (s.data chunk).1.outgoing = s.outgoing := by
  rw [data]
  split <;> rfl

theorem data_sent (k : ℕ) (chunk : List UInt8) :
    ({ s with sent := k }.data chunk).1 = { (s.data chunk).1 with sent := k } := by
  simp only [data]
  split <;> rfl

theorem submissions_header (name value : List UInt8) :
    (s.header name value).2.submissions = [] ∧ (s.header name value).2.read = none := by
  simp only [header, field]
  split_ifs <;> exact ⟨rfl, rfl⟩

/-- What a stream has received: its headers and its data. -/
def receive (s : TcGrpcStream) : List (Callback ω) → TcGrpcStream
  | [] => s
  | .header _ name value :: rest => (s.header name value).1.receive rest
  | .data _ chunk :: rest => (s.data chunk).1.receive rest
  | _ :: rest => s.receive rest

theorem receive_sent (k : ℕ) (events : List (Callback ω)) :
    { s with sent := k }.receive events = { s.receive events with sent := k } := by
  induction events generalizing s with
  | nil => rfl
  | cons e rest ih =>
      cases e with
      | header id name value => rw [receive, header_sent, ih, receive]
      | data id chunk => rw [receive, data_sent, ih, receive]
      | begin id type request => exact ih s
      | frame id type endStream world refused => exact ih s
      | closed id error => exact ih s
      | read id capacity refused => exact ih s

theorem receive_append (a b : List (Callback ω)) :
    s.receive (a ++ b) = (s.receive a).receive b := by
  induction a generalizing s with
  | nil => rfl
  | cons e rest ih => cases e <;> exact ih _

/-- The end of data and the bytes of one call. -/
theorem read_eq (server : Bool) {bytes : List UInt8} (h : Collects s.outgoing bytes)
    (hsent : s.sent ≤ bytes.length) (capacity : ℕ) (refused : Bool) :
    ∃ r, (s.read server capacity refused).2.read = some r ∧
      (s.read server capacity refused).1 =
        { s with sent := min (s.sent + capacity) bytes.length } ∧
      r.bytes = (bytes.drop s.sent).take capacity ∧
      r.eof = decide (bytes.length ≤ s.sent + capacity) ∧
      r.trailers = if server = true ∧ bytes.length ≤ s.sent + capacity then [s.status] else [] := by
  obtain ⟨hnext, hbytes, heof, htrailers⟩ :=
    readData_eq server (s := ⟨s.outgoing, s.sent, s.status⟩) h hsent capacity refused
  refine ⟨_, rfl, ?_, hbytes, heof, htrailers⟩
  rw [read, hnext]

end TcGrpcStream

/-- What reaches a peer besides the ends of frames. -/
def Callback.arrives : Callback ω → Bool
  | .header _ _ _ => true
  | .data _ _ => true
  | .closed _ _ => true
  | _ => false

theorem receive_filter (s : TcGrpcStream) (events : List (Callback ω)) :
    s.receive (events.filter Callback.arrives) = s.receive events := by
  induction events generalizing s with
  | nil => rfl
  | cons e rest ih =>
      cases e with
      | header id name value => exact ih _
      | data id chunk => exact ih _
      | begin id type request => exact ih s
      | frame id type endStream world refused => exact ih s
      | closed id error => exact ih s
      | read id capacity refused => exact ih s

/-! ## Reading to the end -/

/-- Bytes that are taken in parts up to their end. -/
theorem drop_take_drop {bytes : List UInt8} {sent capacity : ℕ}
    (h : sent + capacity ≤ bytes.length) :
    (bytes.drop sent).take capacity ++ bytes.drop (min (sent + capacity) bytes.length) =
      bytes.drop sent := by
  rw [min_eq_left h, ← List.drop_drop, List.take_append_drop]

namespace TcGrpcConnection

variable {c : TcGrpcConnection ω} {s : TcGrpcStream}

theorem run_cons (c : TcGrpcConnection ω) (e : Callback ω) (rest : List (Callback ω)) :
    c.run (e :: rest) = (((c.callback e).1.run rest).1,
      (e.id, (c.callback e).2) :: ((c.callback e).1.run rest).2) := rfl

theorem run_append (c : TcGrpcConnection ω) (a b : List (Callback ω)) :
    c.run (a ++ b) = (((c.run a).1.run b).1, (c.run a).2 ++ ((c.run a).1.run b).2) := by
  induction a generalizing c with
  | nil => rfl
  | cons e rest ih => rw [List.cons_append, run_cons, ih, run_cons, List.cons_append]

theorem stream_single (hs : c.streams = [s]) : c.stream s.id = some s := by
  rw [stream, hs]
  exact List.find?_cons_of_pos (beq_self_eq_true s.id)

theorem put_single (hs : c.streams = [s]) (s' : TcGrpcStream) :
    c.put s.id s' = { c with streams := [s'] } := by
  simp [put, hs, List.replaceF]

theorem callback_header (hs : c.streams = [s]) {id : ℤ} (hid : id = s.id)
    (name value : List UInt8) :
    c.callback (.header id name value) =
      ({ c with streams := [(s.header name value).1] }, (s.header name value).2) := by
  subst hid
  simp only [callback, stream_single hs, put_single hs]

theorem callback_data (hs : c.streams = [s]) {id : ℤ} (hid : id = s.id) (chunk : List UInt8) :
    c.callback (.data id chunk) =
      ({ c with streams := [(s.data chunk).1] }, (s.data chunk).2) := by
  subst hid
  simp only [callback, stream_single hs, put_single hs]

theorem callback_read (hs : c.streams = [s]) {id : ℤ} (hid : id = s.id) (capacity : ℕ)
    (refused : Bool) :
    c.callback (.read id capacity refused) =
      ({ c with streams := [(s.read c.server.isSome capacity refused).1] },
        (s.read c.server.isSome capacity refused).2) := by
  subst hid
  simp only [callback, stream_single hs, put_single hs]

end TcGrpcConnection

/-! ## The client's connection -/

section Client

variable {c : TcGrpcConnection ω} {s : TcGrpcStream}

/-- The stream of a client has received what has come, and its session gets the bytes of its
request in order, however the two are interleaved. -/
theorem client_run (hserver : c.server = none) (hs : c.streams = [s])
    {events : List (Callback ω)} (hid : ∀ e ∈ events, e.id = s.id) {bytes : List UInt8}
    (h : Collects s.outgoing bytes) (hsent : s.sent ≤ bytes.length) :
    (∃ k, (c.run events).1.streams = [{ s.receive events with sent := k }]) ∧
      (complete (readCalls (c.run events).2) = true →
        ((readCalls (c.run events).2).map (·.bytes)).flatten = bytes.drop s.sent) := by
  induction events generalizing c s with
  | nil => exact ⟨⟨s.sent, hs⟩, nofun⟩
  | cons e rest ih =>
      have hrest : ∀ e' ∈ rest, e'.id = s.id := fun e' he' ↦ hid e' (List.mem_cons_of_mem e he')
      rw [TcGrpcConnection.run_cons]
      cases e with
      | header id name value =>
          have hfirst : id = s.id := hid _ List.mem_cons_self
          rw [TcGrpcConnection.callback_header hs hfirst,
            readCalls_cons_none (s.submissions_header name value).2]
          have hih := ih (c := { c with streams := [(s.header name value).1] }) hserver rfl
            (by simpa using hrest) (by simpa using h) (by simpa using hsent)
          rw [s.sent_header] at hih
          exact hih
      | data id chunk =>
          have hfirst : id = s.id := hid _ List.mem_cons_self
          have hread : (s.data chunk).2.read = none := by
            rw [TcGrpcStream.data]
            split <;> rfl
          rw [TcGrpcConnection.callback_data hs hfirst, readCalls_cons_none hread]
          have hih := ih (c := { c with streams := [(s.data chunk).1] }) hserver rfl
            (by simpa using hrest) (by simpa using h) (by simpa using hsent)
          rw [s.sent_data] at hih
          exact hih
      | begin id type request =>
          have hcall : c.callback (.begin id type request) = (c, .none) := by
            simp [TcGrpcConnection.callback, hserver]
          rw [hcall, readCalls_cons_none rfl]
          exact ih hserver hs hrest h hsent
      | frame id type endStream world refused =>
          have hcall : c.callback (.frame id type endStream world refused) = (c, .none) := by
            simp [TcGrpcConnection.callback, hserver]
          rw [hcall, readCalls_cons_none rfl]
          exact ih hserver hs hrest h hsent
      | closed id error =>
          have hread : (c.callback (.closed id error)).2.read = none := by
            simp [TcGrpcConnection.callback, hserver, Reply.none]
          rw [readCalls_cons_none hread]
          refine ih ?_ ?_ hrest h hsent
          · simp [TcGrpcConnection.callback, hserver]
          · simp [TcGrpcConnection.callback, hserver, hs]
      | read id capacity refused =>
          have hfirst : id = s.id := hid _ List.mem_cons_self
          obtain ⟨r, hread, hnext, hbytes, heof, -⟩ :=
            s.read_eq c.server.isSome h hsent capacity refused
          rw [TcGrpcConnection.callback_read hs hfirst, readCalls_cons_some hread, hnext]
          obtain ⟨⟨k, hstreams⟩, hall⟩ := ih
            (c := { c with
              streams := [{ s with sent := min (s.sent + capacity) bytes.length }] })
            (s := { s with sent := min (s.sent + capacity) bytes.length }) hserver rfl
            hrest h (min_le_right _ _)
          refine ⟨⟨k, ?_⟩, fun hcomplete ↦ ?_⟩
          · rw [hstreams, TcGrpcStream.receive_sent]
            rfl
          · rw [complete] at hcomplete
            rw [List.map_cons, List.flatten_cons, hbytes]
            by_cases hlast : bytes.length ≤ s.sent + capacity
            · rw [heof, decide_eq_true hlast, if_pos rfl, List.isEmpty_iff] at hcomplete
              rw [hcomplete, List.take_of_length_le (by rw [List.length_drop]; omega)]
              exact List.append_nil _
            · rw [heof, decide_eq_false hlast, if_neg Bool.false_ne_true] at hcomplete
              rw [hall hcomplete]
              exact drop_take_drop (by omega)

/-- Whether a stream is closed. -/
def Callback.isClosed : Callback ω → Bool
  | .closed _ _ => true
  | _ => false

/-- One callback of a client finishes the connection if it closes the stream, and then
brings an error if the stream is closed with one. -/
theorem client_callback (hserver : c.server = none) (e : Callback ω) :
    (c.callback e).1.server = none ∧
      (c.callback e).1.finished = (c.finished || e.isClosed) ∧
        ((∀ id error, e = .closed id error → error = 0) → (c.callback e).1.error = c.error) := by
  have hput (id : ℤ) (s : TcGrpcStream) : (c.put id s).server = none ∧
      (c.put id s).finished = (c.finished || false) ∧ (c.put id s).error = c.error :=
    ⟨hserver, (Bool.or_false _).symm, rfl⟩
  have hsame : c.server = none ∧ c.finished = (c.finished || false) ∧ c.error = c.error :=
    ⟨hserver, (Bool.or_false _).symm, rfl⟩
  cases e with
  | closed id error =>
      simp only [TcGrpcConnection.callback, hserver, Option.isSome_none, Bool.false_eq_true,
        if_false, Callback.isClosed, Bool.or_true]
      exact ⟨trivial, trivial, fun hgood ↦ if_neg (not_not.mpr (hgood id error rfl))⟩
  | begin id type request =>
      have hcall : (c.callback (.begin id type request)).1 = c := by
        simp [TcGrpcConnection.callback, hserver]
      rw [hcall]
      exact hsame.imp_right (And.imp_right fun h _ ↦ h)
  | frame id type endStream world refused =>
      have hcall : (c.callback (.frame id type endStream world refused)).1 = c := by
        simp [TcGrpcConnection.callback, hserver]
      rw [hcall]
      exact hsame.imp_right (And.imp_right fun h _ ↦ h)
  | header id name value =>
      rw [TcGrpcConnection.callback]
      split
      · exact hsame.imp_right (And.imp_right fun h _ ↦ h)
      · exact (hput id _).imp_right (And.imp_right fun h _ ↦ h)
  | data id chunk =>
      rw [TcGrpcConnection.callback]
      split
      · exact hsame.imp_right (And.imp_right fun h _ ↦ h)
      · exact (hput id _).imp_right (And.imp_right fun h _ ↦ h)
  | read id capacity refused =>
      rw [TcGrpcConnection.callback]
      split
      · exact hsame.imp_right (And.imp_right fun h _ ↦ h)
      · exact (hput id _).imp_right (And.imp_right fun h _ ↦ h)

/-- A client's connection is finished when its stream is closed, and without an error if the
stream is closed without one. -/
theorem client_flags (hserver : c.server = none) {events : List (Callback ω)}
    (hgood : ∀ id error, Callback.closed id error ∈ events → error = 0) :
    (c.run events).1.server = none ∧
      (c.run events).1.finished = (c.finished || events.any Callback.isClosed) ∧
        (c.run events).1.error = c.error := by
  induction events generalizing c with
  | nil => exact ⟨hserver, (Bool.or_false _).symm, rfl⟩
  | cons e rest ih =>
      obtain ⟨hserver', hfinished', herror'⟩ := client_callback hserver e
      obtain ⟨hserver'', hfinished'', herror''⟩ :=
        ih hserver' fun id error hmem ↦ hgood id error (List.mem_cons_of_mem e hmem)
      rw [TcGrpcConnection.run_cons]
      refine ⟨hserver'', ?_, ?_⟩
      · rw [hfinished'', hfinished', List.any_cons, Bool.or_assoc]
      · rw [herror'']
        exact herror' fun id error he ↦ hgood id error (he ▸ List.mem_cons_self)

end Client

/-! ## The server's connection -/

section Server

variable {c : TcGrpcConnection ω} {s : TcGrpcStream} {routes : List (TcGrpcRoute ω)}

/-- A frame that ends nothing. -/
def Callback.isQuiet : Callback ω → Bool
  | .frame _ type endStream _ _ => !((type == .data || type == .headers) && endStream)
  | _ => false

theorem callback_quiet (c : TcGrpcConnection ω) {e : Callback ω} (h : e.isQuiet = true) :
    c.callback e = (c, .none) := by
  cases e with
  | frame id type endStream world refused =>
      have hends : ¬ ((type = .data ∨ type = .headers) ∧ endStream = true) := by
        rintro ⟨rfl | rfl, rfl⟩ <;> cases h
      rw [TcGrpcConnection.callback]
      split
      · rfl
      · rw [if_neg hends]
  | _ => cases h

/-- Frames that end nothing can be left out. -/
theorem run_filter_quiet (c : TcGrpcConnection ω) (events : List (Callback ω)) :
    (c.run (events.filter fun e ↦ !e.isQuiet)).1 = (c.run events).1 ∧
      submissions (c.run (events.filter fun e ↦ !e.isQuiet)).2 = submissions (c.run events).2 ∧
        readCalls (c.run (events.filter fun e ↦ !e.isQuiet)).2 = readCalls (c.run events).2 := by
  induction events generalizing c with
  | nil => exact ⟨rfl, rfl, rfl⟩
  | cons e rest ih =>
      by_cases hquiet : e.isQuiet = true
      · rw [List.filter_cons_of_neg (by simp [hquiet]), TcGrpcConnection.run_cons,
          callback_quiet c hquiet, readCalls_cons_none rfl]
        exact ih c
      · obtain ⟨hstate, hsubmitted, hread⟩ := ih (c.callback e).1
        rw [List.filter_cons_of_pos (by simp [hquiet]), TcGrpcConnection.run_cons,
          TcGrpcConnection.run_cons]
        refine ⟨hstate, ?_, ?_⟩
        · rw [submissions_cons, submissions_cons, hsubmitted]
        · cases hreply : (c.callback e).2.read with
          | none => rw [readCalls_cons_none hreply, readCalls_cons_none hreply, hread]
          | some r => rw [readCalls_cons_some hreply, readCalls_cons_some hreply, hread]

/-- A run with what it leads to, what it submits and what it hands over. -/
structure Runs (c : TcGrpcConnection ω) (events : List (Callback ω)) (c' : TcGrpcConnection ω)
    (submitted : List SessionCall) (handed : List ReadCall) : Prop where
  state : (c.run events).1 = c'
  submitted : submissions (c.run events).2 = submitted
  handed : readCalls (c.run events).2 = handed

namespace Runs

theorem nil (c : TcGrpcConnection ω) : Runs c [] c [] [] := ⟨rfl, rfl, rfl⟩

theorem append {c c' c'' : TcGrpcConnection ω} {a b : List (Callback ω)}
    {submitted submitted' : List SessionCall} {handed handed' : List ReadCall}
    (ha : Runs c a c' submitted handed) (hb : Runs c' b c'' submitted' handed') :
    Runs c (a ++ b) c'' (submitted ++ submitted') (handed ++ handed') where
  state := by rw [TcGrpcConnection.run_append, ha.state, hb.state]
  submitted := by
    rw [TcGrpcConnection.run_append, submissions_append, ha.state, ha.submitted, hb.submitted]
  handed := by rw [TcGrpcConnection.run_append, readCalls_append, ha.state, ha.handed, hb.handed]

/-- A callback that hands nothing over. -/
theorem single {c c' : TcGrpcConnection ω} {e : Callback ω} {reply : Reply}
    (hcall : c.callback e = (c', reply)) (hread : reply.read = none) :
    Runs c [e] c' reply.submissions [] where
  state := by rw [TcGrpcConnection.run_cons, hcall]; rfl
  submitted := by rw [TcGrpcConnection.run_cons, hcall]; exact List.append_nil _
  handed := by rw [TcGrpcConnection.run_cons, hcall]; exact readCalls_cons_none hread []

end Runs

/-- Headers are received without an answer. -/
theorem runs_headers (hs : c.streams = [s]) (headers : List (List UInt8 × List UInt8)) :
    Runs c (headers.map fun h ↦ .header s.id h.1 h.2)
      { c with streams := [s.receive (headers.map fun h ↦ Callback.header (ω := ω) s.id h.1 h.2)] }
        [] [] := by
  induction headers generalizing c s with
  | nil =>
      have hsame : { c with streams := [s] } = c := by rw [← hs]
      rw [List.map_nil, TcGrpcStream.receive, hsame]
      exact Runs.nil c
  | cons h rest ih =>
      obtain ⟨hsubmitted, hread⟩ := s.submissions_header h.1 h.2
      have hfirst := Runs.single (TcGrpcConnection.callback_header hs rfl h.1 h.2) hread
      have hrest := ih (c := { c with streams := [(s.header h.1 h.2).1] }) rfl
      rw [s.id_header] at hrest
      rw [hsubmitted] at hfirst
      exact hfirst.append hrest

/-- Data that fits is received without an answer. -/
theorem runs_data (hs : c.streams = [s]) (chunks : List (List UInt8))
    (hfits : (s.incoming.addAll chunks).2 = true) :
    Runs c (chunks.map (.data s.id))
      { c with streams := [{ s with incoming := (s.incoming.addAll chunks).1 }] } [] [] := by
  induction chunks generalizing c s with
  | nil =>
      have hsame : { c with streams := [s] } = c := by rw [← hs]
      rw [List.map_nil, TcGrpcBuffer.addAll, hsame]
      exact Runs.nil c
  | cons chunk rest ih =>
      rw [TcGrpcBuffer.addAll] at hfits ⊢
      by_cases hadded : (s.incoming.add chunk).2 = 0
      · rw [if_pos hadded] at hfits ⊢
        have hdata : s.data chunk = ({ s with incoming := (s.incoming.add chunk).1 }, .none) := by
          rw [TcGrpcStream.data]
          exact if_neg (not_not.mpr hadded)
        have hcall := TcGrpcConnection.callback_data hs rfl chunk
        rw [hdata] at hcall
        exact (Runs.single hcall rfl).append
          (ih (c := { c with streams := [{ s with incoming := (s.incoming.add chunk).1 }] })
            (s := { s with incoming := (s.incoming.add chunk).1 }) rfl hfits)
      · rw [if_neg hadded] at hfits
        cases hfits

/-- The session gets the bytes of a response in order, and then the status. -/
theorem run_reads (hserver : c.server = some routes) (hs : c.streams = [s]) {bytes : List UInt8}
    (h : Collects s.outgoing bytes) (hsent : s.sent ≤ bytes.length) (reads : List (ℕ × Bool))
    (hcomplete : complete (readCalls (c.run (reads.map fun r ↦ .read s.id r.1 r.2)).2) = true) :
    submissions (c.run (reads.map fun r ↦ .read s.id r.1 r.2)).2 = [] ∧
      ((readCalls (c.run (reads.map fun r ↦ .read s.id r.1 r.2)).2).map (·.bytes)).flatten =
        bytes.drop s.sent ∧
      (readCalls (c.run (reads.map fun r ↦ .read s.id r.1 r.2)).2).flatMap (·.trailers) =
        [s.status] := by
  induction reads generalizing c s with
  | nil => cases hcomplete
  | cons next rest ih =>
      obtain ⟨r, hread, hnext, hbytes, heof, htrailers⟩ :=
        s.read_eq c.server.isSome h hsent next.1 next.2
      rw [hserver, Option.isSome_some] at hread hnext htrailers
      have hsubmitted : (s.read true next.1 next.2).2.submissions = [] := rfl
      rw [List.map_cons, TcGrpcConnection.run_cons, TcGrpcConnection.callback_read hs rfl, hserver,
        Option.isSome_some, readCalls_cons_some hread, hnext] at hcomplete ⊢
      rw [complete] at hcomplete
      rw [submissions_cons, hsubmitted, List.nil_append, List.map_cons, List.flatten_cons, hbytes,
        List.flatMap_cons, htrailers]
      by_cases hlast : bytes.length ≤ s.sent + next.1
      · rw [heof, decide_eq_true hlast, if_pos rfl, List.isEmpty_iff] at hcomplete
        have hrest : rest = [] := by
          cases rest with
          | nil => rfl
          | cons next' rest' =>
              rw [List.map_cons, TcGrpcConnection.run_cons,
                TcGrpcConnection.callback_read
                  (s := { s with sent := min (s.sent + next.1) bytes.length }) rfl rfl,
                readCalls_cons_some rfl] at hcomplete
              cases hcomplete
        subst hrest
        rw [hcomplete, List.take_of_length_le (by rw [List.length_drop]; omega),
          if_pos ⟨rfl, hlast⟩]
        exact ⟨rfl, List.append_nil _, List.append_nil _⟩
      · rw [heof, decide_eq_false hlast, if_neg Bool.false_ne_true] at hcomplete
        obtain ⟨hsubmissions, hparts, hstatus⟩ := ih
          (c := ⟨some routes, [{ s with sent := min (s.sent + next.1) bytes.length }], c.finished,
            c.error⟩)
          (s := { s with sent := min (s.sent + next.1) bytes.length }) rfl rfl h
          (min_le_right _ _) hcomplete
        refine ⟨hsubmissions, ?_, ?_⟩
        · rw [hparts]
          exact drop_take_drop (by omega)
        · rw [if_neg (fun hand ↦ hlast hand.2)]
          exact hstatus

end Server

end TinyCPlus.Runtime
