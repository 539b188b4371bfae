import TinyCPlus.Runtime.GrpcExchange

/-!
# From a call to its handler and back

The two ends of an exchange put together: the routes of a server, the turns of a client's
loop, and the response of `tc_grpc_call` as the handler of the path gave it.
-/

namespace TinyCPlus.Runtime

variable {ω : Type*}

/-! ## Routes -/

/-- What `tc_grpc_server_add` is called with, one call after the other, before the server is
running. -/
abbrev Additions (ω : Type*) := List (List UInt8 × (List UInt8 → ω → Option TcGrpcResponse))

/-- The routes behind these calls. -/
def addRoutes (additions : Additions ω) (routes : List (TcGrpcRoute ω)) : List (TcGrpcRoute ω) :=
  additions.foldl (fun routes a ↦ (serverAdd false routes a.1 a.2).1) routes

/-- A path that `tc_grpc_server_add` takes. -/
def GoodPath (path : List UInt8) : Prop := path.getD 0 0 = 47 ∧ path.length ≤ 4096

theorem GoodPath.length_ne {path : List UInt8} (h : GoodPath path) : path.length ≠ 0 := by
  rintro hzero
  rw [List.length_eq_zero_iff] at hzero
  subst hzero
  exact absurd h.1 (by decide)

theorem find?_serverAdd (routes : List (TcGrpcRoute ω)) {path : List UInt8} (h : GoodPath path)
    (a : List UInt8 × (List UInt8 → ω → Option TcGrpcResponse)) :
    ((serverAdd false routes a.1 a.2).1.find? fun r ↦ r.path == path) =
      (routes.find? fun r ↦ r.path == path).or
        (if a.1 = path then some ⟨a.1, a.2⟩ else none) := by
  have hbad : ¬ (path.length = 0 ∨ path.getD 0 0 ≠ 47 ∨ 4096 < path.length ∨ false = true) := by
    rintro (hzero | hslash | hlong | hfalse)
    · exact h.length_ne hzero
    · exact hslash h.1
    · exact absurd h.2 (not_le.mpr hlong)
    · cases hfalse
  by_cases hpath : a.1 = path
  · subst hpath
    rw [serverAdd, if_neg hbad, if_pos rfl]
    split
    · rename_i hany
      obtain ⟨r, hr, hsame⟩ := List.any_eq_true.mp hany
      have hsome : (routes.find? fun r ↦ r.path == a.1).isSome = true :=
        List.find?_isSome.mpr ⟨r, hr, hsame⟩
      obtain ⟨found, hfound⟩ := Option.isSome_iff_exists.mp hsome
      rw [hfound, Option.some_or]
    · rename_i hany
      have hnone : (routes.find? fun r ↦ r.path == a.1) = none :=
        List.find?_eq_none.mpr fun r hr hsame ↦ hany (List.any_eq_true.mpr ⟨r, hr, hsame⟩)
      rw [hnone, Option.none_or]
      exact List.find?_cons_of_pos (beq_self_eq_true a.1)
  · rw [serverAdd, if_neg hpath, Option.or_none]
    split
    · rfl
    · split
      · rfl
      · exact List.find?_cons_of_neg (by simpa using hpath)

/-- A path is served by the handler that was added for it first. -/
theorem find?_addRoutes {path : List UInt8} (h : GoodPath path) (additions : Additions ω)
    (routes : List (TcGrpcRoute ω)) :
    ((addRoutes additions routes).find? fun r ↦ r.path == path) =
      (routes.find? fun r ↦ r.path == path).or
        ((additions.find? fun a ↦ a.1 == path).map fun a ↦ ⟨a.1, a.2⟩) := by
  induction additions generalizing routes with
  | nil => exact (Option.or_none).symm
  | cons a rest ih =>
      have hrest := ih (serverAdd false routes a.1 a.2).1
      rw [find?_serverAdd routes h a, Option.or_assoc] at hrest
      refine hrest.trans (congrArg _ ?_)
      by_cases hpath : a.1 = path
      · rw [if_pos hpath, Option.some_or, List.find?_cons_of_pos (by simpa using hpath)]
        rfl
      · rw [if_neg hpath, Option.none_or, List.find?_cons_of_neg (by simpa using hpath)]

/-- What a server with these handlers responds to a request. -/
def routed (additions : Additions ω) (path request : List UInt8) (world : ω) : TcGrpcResponse :=
  match additions.find? fun a ↦ a.1 == path with
  | some a => (a.2 request world).getD (grpcResponse [] 13)
  | none => grpcResponse [] 12

/-! ## Headers -/

namespace TcGrpcStream

variable (s : TcGrpcStream)

theorem header_eq {name value : List UInt8} {n : ℕ} (hn : name.length + value.length = n)
    (h : s.header_bytes + n ≤ 16384) :
    s.header name value = { s with header_bytes := s.header_bytes + n }.field name value := by
  rw [header, hn]
  exact if_neg (not_lt.mpr h)

theorem header_path {path : List UInt8} (h : path.length ≤ 4096)
    (hcount : s.header_bytes + (5 + path.length) ≤ 16384) :
    (s.header (ascii ":path") path).1 =
      { s with header_bytes := s.header_bytes + (5 + path.length), path := path } := by
  have hname : (ascii ":path").length + path.length = 5 + path.length := rfl
  rw [s.header_eq hname hcount, field, if_pos rfl, if_neg (not_lt.mpr h)]

theorem header_status (hcount : s.header_bytes + 10 ≤ 16384) :
    (s.header (ascii ":status") (ascii "200")).1 =
      { s with header_bytes := s.header_bytes + 10, http_status := 200 } := by
  rw [s.header_eq (n := 10) rfl hcount, field, if_neg (by decide), if_pos rfl,
    if_pos (by decide)]
  rfl

theorem header_contentType (hcount : s.header_bytes + 28 ≤ 16384) :
    (s.header (ascii "content-type") (ascii "application/grpc")).1 =
      { s with header_bytes := s.header_bytes + 28, grpc_type := true } := by
  rw [s.header_eq (n := 28) rfl hcount, field, if_neg (by decide), if_neg (by decide), if_pos rfl]
  rfl

theorem header_grpcStatus (value : List UInt8)
    (hcount : s.header_bytes + (11 + value.length) ≤ 16384) :
    (s.header (ascii "grpc-status") value).1 =
      { s with
        header_bytes := s.header_bytes + (11 + value.length)
        have_status := true
        status := grpcStatus value } := by
  have hname : (ascii "grpc-status").length + value.length = 11 + value.length := rfl
  rw [s.header_eq hname hcount, field, if_neg (by decide), if_neg (by decide),
    if_neg (by decide), if_pos rfl]

/-- The other headers are counted only. -/
theorem header_other {name value : List UInt8} {n : ℕ} (hn : name.length + value.length = n)
    (hcount : s.header_bytes + n ≤ 16384)
    (hname : name ∉ [ascii ":path", ascii ":status", ascii "content-type", ascii "grpc-status"]) :
    (s.header name value).1 = { s with header_bytes := s.header_bytes + n } := by
  simp only [List.mem_cons, List.not_mem_nil, or_false, not_or] at hname
  rw [s.header_eq hn hcount, field, if_neg hname.1, if_neg hname.2.1, if_neg hname.2.2.1,
    if_neg hname.2.2.2]

/-- The headers of a request leave the path and the type with the stream. -/
theorem receive_request (id : ℤ) {host path : List UInt8} {port : ℤ} (hpath : path.length ≤ 4096)
    (hauthority : (authority host port).length < 512) :
    ∃ count, (create id).receive
        ((requestHeaders host port path).map fun h ↦ Callback.header (ω := ω) id h.1 h.2) =
      { create id with path := path, header_bytes := count, grpc_type := true } := by
  set n := (authority host port).length
  have hmethod : ((create id).header (ascii ":method") (ascii "POST")).1 =
      { create id with header_bytes := 11 } :=
    header_other _ rfl (show 0 + 11 ≤ 16384 by decide) (by decide)
  have hscheme : ({ create id with header_bytes := 11 }.header (ascii ":scheme") (ascii "http")).1 =
      { create id with header_bytes := 22 } :=
    header_other _ rfl (show 11 + 11 ≤ 16384 by decide) (by decide)
  have hauth : ({ create id with header_bytes := 22 }.header (ascii ":authority")
      (authority host port)).1 = { create id with header_bytes := 22 + (10 + n) } :=
    header_other _ rfl (by dsimp only; omega) (by decide)
  have hroute := header_path { create id with header_bytes := 22 + (10 + n) } hpath
    (by dsimp only; omega)
  have htype := header_contentType
    { create id with header_bytes := 22 + (10 + n) + (5 + path.length), path := path }
    (by dsimp only; omega)
  have hte : ({ create id with
      header_bytes := 22 + (10 + n) + (5 + path.length) + 28, path := path,
      grpc_type := true }.header (ascii "te") (ascii "trailers")).1 =
        { create id with
          header_bytes := 22 + (10 + n) + (5 + path.length) + 28 + 10, path := path,
          grpc_type := true } :=
    header_other _ rfl (by dsimp only; omega) (by decide)
  refine ⟨22 + (10 + n) + (5 + path.length) + 28 + 10, ?_⟩
  simp only [requestHeaders, List.map_cons, List.map_nil, receive]
  rw [hmethod, hscheme, hauth, hroute, htype, hte]

end TcGrpcStream

/-! ## Turns -/

namespace Turn

/-- The callbacks of a turn. -/
def calls (t : Turn ω) : List (Callback ω) :=
  t.sending ++ match t.arrival with
    | .received calls _ => calls
    | _ => []

/-- Nothing fails in the turn. -/
def Smooth (t : Turn ω) : Prop :=
  t.flush = 0 ∧ t.late = false ∧
    match t.arrival with
    | .received _ accepted => accepted = true
    | .notReady => True
    | .wouldBlock => True
    | _ => False

end Turn

namespace TcGrpcConnection

variable {c : TcGrpcConnection ω}

/-- A smooth turn of a client makes its callbacks and goes on. -/
theorem turn_smooth (hserver : c.server = none) (herror : c.error = 0) {t : Turn ω}
    (ht : t.Smooth) (hgood : ∀ id error, Callback.closed id error ∈ t.calls → error = 0) :
    c.turn t = ((c.run t.calls).1, (c.run t.calls).2, true) := by
  obtain ⟨hflush, hlate, harrival⟩ := ht
  have hgood' : ∀ id error, Callback.closed id error ∈ t.sending → error = 0 :=
    fun id error hmem ↦ hgood id error (List.mem_append_left _ hmem)
  obtain ⟨hserver', -, herror'⟩ := client_flags hserver hgood'
  have hsent : { (c.run t.sending).1 with error := t.flush } = (c.run t.sending).1 := by
    rw [hflush, ← herror, ← herror']
  have hrunning : ¬ ((c.run t.sending).1.server.isSome = true ∧ t.stopping = true) := by
    rw [hserver']
    rintro ⟨⟨⟩, -⟩
  rw [turn, hsent]
  simp only [herror', herror, ne_eq, not_true_eq_false, if_false, if_neg hrunning, hlate,
    Bool.false_eq_true]
  cases hwhat : t.arrival with
  | waitFailed | ended | failed =>
      rw [hwhat] at harrival
      exact harrival.elim
  | notReady | wouldBlock => simp [Turn.calls, hwhat]
  | received calls accepted =>
      rw [hwhat] at harrival
      subst harrival
      simp [Turn.calls, hwhat, run_append]

/-- The loop of a client with smooth turns makes all their callbacks and ends when the stream
is closed, which it is in the last of them. -/
theorem turns_smooth {turns : List (Turn ω)} (hserver : c.server = none) (herror : c.error = 0)
    (hopen : c.finished = false) (hsmooth : ∀ t ∈ turns, t.Smooth)
    (hgood : ∀ id error, Callback.closed id error ∈ turns.flatMap Turn.calls → error = 0)
    (hbefore : ∀ t ∈ turns.dropLast, t.calls.any Callback.isClosed = false)
    (hclosed : (turns.flatMap Turn.calls).any Callback.isClosed = true) :
    c.turns turns = some (c.run (turns.flatMap Turn.calls)) := by
  induction turns generalizing c with
  | nil => cases hclosed
  | cons t rest ih =>
      rw [List.flatMap_cons] at hgood hclosed
      have hgood' : ∀ id error, Callback.closed id error ∈ t.calls → error = 0 :=
        fun id error hmem ↦ hgood id error (List.mem_append_left _ hmem)
      have ht := turn_smooth hserver herror (hsmooth t List.mem_cons_self) hgood'
      obtain ⟨hserver', hfinished', herror'⟩ := client_flags hserver hgood'
      rw [hopen, Bool.false_or] at hfinished'
      have hgoes : ¬ (c.finished = true ∨ c.error ≠ 0) := by simp [hopen, herror]
      rw [TcGrpcConnection.turns, if_neg hgoes, ht]
      simp only [if_true]
      rw [List.flatMap_cons, run_append]
      cases rest with
      | nil =>
          rw [List.flatMap_nil, List.append_nil] at hclosed
          rw [hclosed] at hfinished'
          rw [TcGrpcConnection.turns, if_pos (Or.inl hfinished')]
          rfl
      | cons t' rest' =>
          have hstays := hbefore t (by rw [List.dropLast_cons_cons]; exact List.mem_cons_self)
          rw [hstays] at hfinished'
          rw [List.any_append, hstays, Bool.false_or] at hclosed
          rw [ih hserver' (herror'.trans herror) hfinished'
            (fun t ht ↦ hsmooth t (List.mem_cons_of_mem _ ht))
            (fun id error hmem ↦ hgood id error (List.mem_append_right _ hmem))
            (fun t ht ↦ hbefore t (by rw [List.dropLast_cons_cons]; exact List.mem_cons_of_mem _ ht))
            hclosed]
          rfl

end TcGrpcConnection

/-! ## The server's side -/

/-- The callbacks that bring a request to a server, and those with which its session gets the
response. -/
def requestCallbacks (id : ℤ) (headers : List (List UInt8 × List UInt8))
    (chunks : List (List UInt8)) (type : FrameType) (world : ω) (reads : List (ℕ × Bool)) :
    List (Callback ω) :=
  [.begin id .headers true] ++ (headers.map fun h ↦ .header id h.1 h.2) ++
    chunks.map (.data id) ++ [.frame id type true world false] ++
      reads.map fun r ↦ .read id r.1 r.2

/-- What a stream is when its request has come. -/
structure Requested (s : TcGrpcStream) (id : ℤ) (path request : List UInt8) : Prop where
  id_eq : s.id = id
  path_eq : s.path = path
  type_eq : s.grpc_type = true
  incoming : Collects s.incoming (grpcFrame request)
  outgoing : s.outgoing = .empty
  sent : s.sent = 0

section Request

variable {additions : Additions ω} {id : ℤ}
  {host path request : List UInt8} {port : ℤ}

theorem runs_request (routes : List (TcGrpcRoute ω)) (id : ℤ) (hpath : path.length ≤ 4096) (hauthority : (authority host port).length < 512)
    (hlimit : request.length ≤ grpcLimit) {chunks : List (List UInt8)}
    (hchunks : chunks.flatten = grpcFrame request) :
    ∃ s, Requested s id path request ∧
      Runs (.serve routes)
        ([.begin id .headers true] ++
          ((requestHeaders host port path).map fun h ↦ .header id h.1 h.2) ++
            chunks.map (.data id))
        ⟨some routes, [s], false, 0⟩ [] [] := by
  obtain ⟨count, hheaders⟩ := TcGrpcStream.receive_request (ω := ω) id hpath hauthority
  obtain ⟨hcollects, htaken⟩ := Collects.empty.addAll chunks
    (by rw [hchunks, length_grpcFrame, List.length_nil]; omega)
  rw [List.nil_append, hchunks] at hcollects
  have hbegin : (TcGrpcConnection.serve routes).callback (.begin id .headers true) =
      (⟨some routes, [.create id], false, 0⟩, .none) := rfl
  have hreceived := runs_headers (c := ⟨some routes, [TcGrpcStream.create id], false, 0⟩)
    (s := .create id) rfl (requestHeaders host port path)
  rw [TcGrpcStream.id_create, hheaders] at hreceived
  have hdata := runs_data
    (c := ⟨some routes, [{ TcGrpcStream.create id with
      path := path, header_bytes := count, grpc_type := true }], false, 0⟩) rfl chunks htaken
  exact ⟨_, ⟨rfl, rfl, rfl, hcollects, rfl, rfl⟩,
    ((Runs.single hbegin rfl).append hreceived).append hdata⟩

theorem respond_requested {s : TcGrpcStream} (h : Requested s id path request)
    (hpath : GoodPath path) (hlimit : request.length ≤ grpcLimit) (world : ω) :
    s.respond (addRoutes additions []) world = routed additions path request world := by
  have hfound : ((addRoutes additions []).find? fun r ↦ r.path == path) =
      (additions.find? fun a ↦ a.1 == path).map fun a ↦ ⟨a.1, a.2⟩ :=
    find?_addRoutes hpath additions []
  rw [TcGrpcStream.respond, h.type_eq, if_pos rfl, h.incoming.unpack_frame hlimit, h.path_eq,
    hfound, routed]
  cases additions.find? fun a ↦ a.1 == path <;> rfl

/-- The last frame of a request is answered. -/
theorem runs_answer (routes : List (TcGrpcRoute ω)) {s : TcGrpcStream} (h : Requested s id path request) (world : ω)
    {type : FrameType} (htype : type ≠ .other) :
    ∃ s', s'.id = id ∧ s'.status = (s.respond routes world).status ∧ s'.sent = 0 ∧
      Collects s'.outgoing (grpcFrame (s.respond routes world).data) ∧
      Runs ⟨some routes, [s], false, 0⟩ [.frame id type true world false]
        ⟨some routes, [s'], false, 0⟩
        [.response id [(ascii ":status", ascii "200"),
          (ascii "content-type", ascii "application/grpc")]] [] := by
  obtain ⟨hpacked, hcode⟩ := Collects.pack (s.respond routes world).length_data
  have hanswer : s.answer routes world =
      ({ s with
          status := (s.respond routes world).status
          outgoing := (TcGrpcBuffer.empty.pack (s.respond routes world).data).1 },
        ⟨0, [.response id [(ascii ":status", ascii "200"),
          (ascii "content-type", ascii "application/grpc")]], none⟩) := by
    rw [TcGrpcStream.answer, h.outgoing, h.id_eq]
    simp only [hcode, ne_eq, not_true_eq_false, if_false]
  have hends : type = .data ∨ type = .headers := by
    cases type with
    | data => exact Or.inl rfl
    | headers => exact Or.inr rfl
    | other => exact absurd rfl htype
  have hstream := TcGrpcConnection.stream_single
    (c := (⟨some routes, [s], false, 0⟩ : TcGrpcConnection ω)) rfl
  have hput := TcGrpcConnection.put_single
    (c := (⟨some routes, [s], false, 0⟩ : TcGrpcConnection ω)) rfl (s.answer routes world).1
  rw [h.id_eq] at hstream hput
  refine ⟨(s.answer routes world).1, ?_, ?_, ?_, ?_, ?_⟩
  · exact (s.id_answer routes world).trans h.id_eq
  · rw [hanswer]
  · rw [hanswer]
    exact h.sent
  · rw [hanswer]
    exact hpacked
  · have hcall : (⟨some routes, [s], false, 0⟩ : TcGrpcConnection ω).callback
        (.frame id type true world false) =
          (⟨some routes, [(s.answer routes world).1], false, 0⟩, (s.answer routes world).2) := by
      simp only [TcGrpcConnection.callback, hends, and_self, if_true, hstream, hput,
        Bool.false_eq_true, if_false]
    have hrun := Runs.single hcall (by rw [hanswer])
    rw [hanswer] at hrun ⊢
    exact hrun

/-- A request whose bytes arrive in any parts is handed to the handler of its path, and the
session gets the response once: its headers, its bytes in order and its status. -/
theorem server_answers (hpath : GoodPath path) (hauthority : (authority host port).length < 512)
    (hlimit : request.length ≤ grpcLimit) {chunks : List (List UInt8)}
    (hchunks : chunks.flatten = grpcFrame request) {type : FrameType} (htype : type ≠ .other)
    {world : ω} {reads : List (ℕ × Bool)} {replies : List (ℤ × Reply)}
    (hreplies : replies = ((TcGrpcConnection.serve (addRoutes additions [])).run
      (requestCallbacks id (requestHeaders host port path) chunks type world reads)).2)
    (hcomplete : complete (readCalls replies) = true) :
    submissions replies = [.response id
        [(ascii ":status", ascii "200"), (ascii "content-type", ascii "application/grpc")]] ∧
      ((readCalls replies).map (·.bytes)).flatten =
        grpcFrame (routed additions path request world).data ∧
      (readCalls replies).flatMap (·.trailers) = [(routed additions path request world).status] := by
  obtain ⟨s, hs, hrequest⟩ := runs_request (addRoutes additions []) id hpath.2 hauthority hlimit
    hchunks
  obtain ⟨s', hid, hstatus, hsent, hcollects, hanswer⟩ :=
    runs_answer (addRoutes additions []) hs world htype
  rw [respond_requested hs hpath hlimit] at hstatus hcollects
  have hfront := hrequest.append hanswer
  rw [requestCallbacks, TcGrpcConnection.run_append, hfront.state] at hreplies
  have hreads := run_reads (c := (⟨some (addRoutes additions []), [s'], false, 0⟩ :
    TcGrpcConnection ω)) rfl rfl hcollects (by omega) reads
  rw [hid, hsent, hstatus, List.drop_zero] at hreads
  have hhanded := hfront.handed
  have hsubmitted := hfront.submitted
  subst hreplies
  rw [readCalls_append, hhanded, List.nil_append] at hcomplete
  obtain ⟨hnone, hbytes, htrailers⟩ := hreads hcomplete
  rw [submissions_append, readCalls_append, hhanded, hsubmitted, hnone]
  exact ⟨rfl, hbytes, htrailers⟩

end Request

/-! ## The client's side -/

/-- The callbacks that bring a client what a server has submitted and handed over, but for
the ends of frames. -/
def responseCallbacks (id : ℤ) (replies : List (ℤ × Reply)) (chunks : List (List UInt8)) :
    List (Callback ω) :=
  ((submissions replies).flatMap fun
    | .response _ headers => headers
    | .rstStream _ _ => []).map (fun h ↦ .header id h.1 h.2) ++
    chunks.map (.data id) ++
    ((readCalls replies).flatMap (·.trailers)).map
      (fun status ↦ .header id (ascii "grpc-status") (decimal status)) ++
    [.closed id 0]

/-- A status is read as it was written. -/
theorem grpcStatus_decimal {status : ℤ} (hnonneg : 0 ≤ status) (hle : status ≤ 16) :
    grpcStatus (decimal status) = status ∧ (decimal status).length ≤ 2 := by
  have hall : ∀ n : Fin 17, grpcStatus (decimal n.val) = n.val ∧ (decimal n.val).length ≤ 2 := by
    decide
  lift status to ℕ using hnonneg
  exact hall ⟨status, by omega⟩

theorem receive_data (s : TcGrpcStream) (id : ℤ) (chunks : List (List UInt8))
    (hfits : (s.incoming.addAll chunks).2 = true) :
    s.receive (chunks.map (Callback.data (ω := ω) id)) =
      { s with incoming := (s.incoming.addAll chunks).1 } := by
  induction chunks generalizing s with
  | nil => rfl
  | cons chunk rest ih =>
      rw [TcGrpcBuffer.addAll] at hfits ⊢
      by_cases hadded : (s.incoming.add chunk).2 = 0
      · rw [if_pos hadded] at hfits ⊢
        have hdata : s.data chunk = ({ s with incoming := (s.incoming.add chunk).1 }, .none) := by
          rw [TcGrpcStream.data]
          exact if_neg (not_not.mpr hadded)
        rw [List.map_cons, TcGrpcStream.receive, hdata]
        exact ih { s with incoming := (s.incoming.add chunk).1 } hfits
      · rw [if_neg hadded] at hfits
        cases hfits

/-- What a call makes of a response: no data unless the status is zero. -/
def outcome (response : TcGrpcResponse) : TcGrpcResponse :=
  grpcResponse (if response.status ≠ 0 then [] else response.data) response.status

/-- A response whose bytes arrive in any parts is the result of the call. -/
theorem callResult_receive (id : ℤ) (packed : TcGrpcBuffer) (response : TcGrpcResponse)
    {replies : List (ℤ × Reply)}
    (hsubmitted : submissions replies = [.response id
      [(ascii ":status", ascii "200"), (ascii "content-type", ascii "application/grpc")]])
    (htrailers : (readCalls replies).flatMap (·.trailers) = [response.status])
    {chunks : List (List UInt8)} (hchunks : chunks.flatten = grpcFrame response.data) (k : ℕ) :
    callResult 0 { { TcGrpcStream.create id with outgoing := packed }.receive
      (responseCallbacks (ω := ω) id replies chunks) with sent := k } = outcome response := by
  obtain ⟨hstatus, hlength⟩ := grpcStatus_decimal response.status_nonneg response.status_le
  have hlimit := response.length_data
  obtain ⟨hcollects, htaken⟩ := Collects.empty.addAll chunks
    (by rw [hchunks, length_grpcFrame, List.length_nil]; omega)
  rw [List.nil_append, hchunks] at hcollects
  have hheaders : ({ TcGrpcStream.create id with outgoing := packed }.receive
      [Callback.header (ω := ω) id (ascii ":status") (ascii "200"),
        .header id (ascii "content-type") (ascii "application/grpc")]) =
      { TcGrpcStream.create id with
        outgoing := packed, header_bytes := 38, http_status := 200, grpc_type := true } := by
    have hfirst : ({ TcGrpcStream.create id with outgoing := packed }.header (ascii ":status")
        (ascii "200")).1 =
          { TcGrpcStream.create id with outgoing := packed, header_bytes := 10, http_status := 200 } :=
      TcGrpcStream.header_status _ (show 0 + 10 ≤ 16384 by decide)
    rw [TcGrpcStream.receive, hfirst]
    exact TcGrpcStream.header_contentType _ (show 10 + 28 ≤ 16384 by decide)
  have hdata : { TcGrpcStream.create id with
      outgoing := packed, header_bytes := 38, http_status := 200,
      grpc_type := true }.receive (chunks.map (Callback.data (ω := ω) id)) =
      { TcGrpcStream.create id with
        outgoing := packed, header_bytes := 38, http_status := 200, grpc_type := true,
        incoming := (TcGrpcBuffer.empty.addAll chunks).1 } :=
    receive_data _ id chunks htaken
  have htrailer := TcGrpcStream.header_grpcStatus
    { TcGrpcStream.create id with
      outgoing := packed, header_bytes := 38, http_status := 200, grpc_type := true,
      incoming := (TcGrpcBuffer.empty.addAll chunks).1 }
    (decimal response.status) (by dsimp only; omega)
  have hlast (s : TcGrpcStream) : s.receive
      [Callback.header (ω := ω) id (ascii "grpc-status") (decimal response.status),
        .closed id 0] = (s.header (ascii "grpc-status") (decimal response.status)).1 := rfl
  have hevents : responseCallbacks (ω := ω) id replies chunks =
      [.header id (ascii ":status") (ascii "200"),
        .header id (ascii "content-type") (ascii "application/grpc")] ++ chunks.map (.data id) ++
      [.header id (ascii "grpc-status") (decimal response.status), .closed id 0] := by
    rw [responseCallbacks, hsubmitted, htrailers]
    simp
  rw [hevents, TcGrpcStream.receive_append, TcGrpcStream.receive_append, hheaders, hdata, hlast,
    htrailer, hstatus, callResult, outcome]
  simp only [ne_eq, not_true_eq_false, if_false, Bool.true_eq_false, or_self]
  by_cases hzero : response.status = 0
  · rw [hzero, if_pos rfl, hcollects.unpack_frame hlimit]
  · simp only [hzero, if_false, not_false_eq_true, if_true]

/-! ## Both sides -/

/-- The callbacks of a client's exchange. -/
def CallWorld.calls (w : CallWorld ω) : List (Callback ω) := w.turns.flatMap Turn.calls ++ w.final

/-- The replies to them. -/
def CallWorld.replies (w : CallWorld ω) (request : List UInt8) : List (ℤ × Reply) :=
  ((callConnection w.id (TcGrpcBuffer.empty.pack request).1).run w.calls).2

/-- The replies of a server to the callbacks of a stream, out of those of all its streams. -/
def serverReplies (additions : Additions ω) (events : List (Callback ω)) (id : ℤ) :
    List (ℤ × Reply) :=
  ((TcGrpcConnection.serve (addRoutes additions [])).run events).2.filter fun o ↦
    decide (o.1 = id)

/-- A call and a server that an HTTP/2 connection carries a request and its response between.
Nothing fails on the way, the stream is closed in the last turn of the client, and each side
is called back with what the other one has submitted and handed over, the bytes in any
parts.  The callbacks of the server are those of all its streams, in any order. -/
structure Carried (additions : Additions ω) (w : CallWorld ω) (host : List UInt8) (port : ℤ)
    (path request : List UInt8) (events : List (Callback ω)) (world : ω) : Prop where
  connected : w.connect = 0
  session : w.session = true
  submitted : 0 ≤ w.id
  smooth : ∀ t ∈ w.turns, t.Smooth
  own : ∀ e ∈ w.calls, e.id = w.id
  open_before : ∀ t ∈ w.turns.dropLast, t.calls.any Callback.isClosed = false
  open_behind : w.final.any Callback.isClosed = false
  request_read : complete (readCalls (w.replies request)) = true
  request_comes : ∃ chunks type reads, type ≠ .other ∧
    chunks.flatten = ((readCalls (w.replies request)).map (·.bytes)).flatten ∧
    ((events.filter fun e ↦ decide (e.id = w.id)).filter fun e ↦ !e.isQuiet) =
      requestCallbacks w.id (requestHeaders host port path) chunks type world reads
  response_read : complete (readCalls (serverReplies additions events w.id)) = true
  response_comes : ∃ chunks,
    chunks.flatten =
      ((readCalls (serverReplies additions events w.id)).map (·.bytes)).flatten ∧
    w.calls.filter Callback.arrives =
      responseCallbacks w.id (serverReplies additions events w.id) chunks

namespace Carried

variable {additions : Additions ω} {w : CallWorld ω} {host path request : List UInt8} {port : ℤ}
  {events : List (Callback ω)} {world : ω}

/-- The client's stream is closed once, without an error, and last. -/
theorem closed_iff (h : Carried additions w host port path request events world) (id : ℤ)
    (error : ℕ) : Callback.closed id error ∈ w.calls ↔ id = w.id ∧ error = 0 := by
  obtain ⟨chunks, -, hcalls⟩ := h.response_comes
  have hfilter : Callback.closed id error ∈ w.calls ↔
      Callback.closed id error ∈ w.calls.filter Callback.arrives := by
    rw [List.mem_filter]
    exact (and_iff_left rfl).symm
  rw [hfilter, hcalls, responseCallbacks]
  simp

/-- The exchange of the client ends with all callbacks made. -/
theorem exchange_eq (h : Carried additions w host port path request events world)
    (packed : TcGrpcBuffer) :
    (callConnection w.id packed).exchange w.turns w.final =
      some ((callConnection w.id packed).run w.calls) := by
  have hserver : (callConnection w.id packed : TcGrpcConnection ω).server = none := rfl
  have herror : (callConnection w.id packed : TcGrpcConnection ω).error = 0 :=
    if_neg (not_lt.mpr h.submitted)
  have hgood : ∀ id error, Callback.closed id error ∈ w.turns.flatMap Turn.calls → error = 0 :=
    fun id error hmem ↦ ((h.closed_iff id error).mp (List.mem_append_left _ hmem)).2
  have hclosed : (w.turns.flatMap Turn.calls).any Callback.isClosed = true := by
    have hmem := (h.closed_iff w.id 0).mpr ⟨rfl, rfl⟩
    rcases List.mem_append.mp hmem with hturn | hfinal
    · exact List.any_eq_true.mpr ⟨_, hturn, rfl⟩
    · have hany : w.final.any Callback.isClosed = true := List.any_eq_true.mpr ⟨_, hfinal, rfl⟩
      rw [h.open_behind] at hany
      cases hany
  have hturns := TcGrpcConnection.turns_smooth hserver herror rfl h.smooth hgood h.open_before
    hclosed
  obtain ⟨-, -, hstill⟩ := client_flags hserver hgood
  rw [TcGrpcConnection.exchange, hturns, Option.map_some, if_pos (hstill.trans herror),
    CallWorld.calls, TcGrpcConnection.run_append]

/-- The client hands its request over. -/
theorem request_bytes (h : Carried additions w host port path request events world)
    (hlimit : request.length ≤ grpcLimit) :
    ((readCalls (w.replies request)).map (·.bytes)).flatten = grpcFrame request := by
  obtain ⟨hpacked, -⟩ := Collects.pack hlimit
  obtain ⟨-, hbytes⟩ := client_run
    (c := callConnection w.id (TcGrpcBuffer.empty.pack request).1) rfl rfl h.own hpacked
    (Nat.zero_le _)
  exact hbytes h.request_read

/-- The server replies to the request as the handler of the path responds. -/
theorem replies_eq (h : Carried additions w host port path request events world)
    (hpath : GoodPath path) (hauthority : (authority host port).length < 512)
    (hlimit : request.length ≤ grpcLimit) :
    submissions (serverReplies additions events w.id) = [.response w.id
        [(ascii ":status", ascii "200"), (ascii "content-type", ascii "application/grpc")]] ∧
      ((readCalls (serverReplies additions events w.id)).map (·.bytes)).flatten =
        grpcFrame (routed additions path request world).data ∧
      (readCalls (serverReplies additions events w.id)).flatMap (·.trailers) =
        [(routed additions path request world).status] := by
  obtain ⟨chunks, type, reads, htype, hchunks, hevents⟩ := h.request_comes
  rw [h.request_bytes hlimit] at hchunks
  have hown := (serve_interleaves (addRoutes additions []) events w.id).2
  obtain ⟨-, hsubmitted, hread⟩ := run_filter_quiet
    (TcGrpcConnection.serve (addRoutes additions []))
    (events.filter fun e ↦ decide (e.id = w.id))
  rw [hevents, hown] at hsubmitted hread
  rw [serverReplies, ← hsubmitted, ← hread]
  refine server_answers hpath hauthority hlimit hchunks htype rfl ?_
  rw [hread]
  exact h.response_read

end Carried

/-- A call through a connection that carries it ends, and its result is the response that the
handler added first for the path gives to the request, its status and, if that is zero, its
data; without such a handler the status is 12, and 13 if the handler gives nothing. -/
theorem call_carried {additions : Additions ω} {w : CallWorld ω} {host path request : List UInt8}
    {port : ℤ} {events : List (Callback ω)} {world : ω} (hhost : (0 : UInt8) ∉ host)
    (hzero : (0 : UInt8) ∉ path) (hpath : GoodPath path)
    (hauthority : (authority host port).length < 512) (hlimit : request.length ≤ grpcLimit)
    (h : Carried additions w host port path request events world) :
    call w host port path request = some (requestHeaders host port path, w.replies request,
      outcome (routed additions path request world)) := by
  obtain ⟨hpacked, hcode⟩ := Collects.pack hlimit
  obtain ⟨⟨k, hstreams⟩, -⟩ := client_run
    (c := callConnection w.id (TcGrpcBuffer.empty.pack request).1) rfl rfl h.own hpacked
    (Nat.zero_le _)
  have hgood : ∀ id error, Callback.closed id error ∈ w.calls → error = 0 :=
    fun id error hmem ↦ ((h.closed_iff id error).mp hmem).2
  obtain ⟨-, -, herror⟩ := client_flags
    (c := callConnection w.id (TcGrpcBuffer.empty.pack request).1) rfl hgood
  obtain ⟨hsubmitted, hbytes, htrailers⟩ := h.replies_eq hpath hauthority hlimit
  obtain ⟨chunks, hchunks, hcalls⟩ := h.response_comes
  rw [hbytes] at hchunks
  have hresult := callResult_receive (ω := ω) w.id (TcGrpcBuffer.empty.pack request).1
    (routed additions path request world) hsubmitted htrailers hchunks k
  rw [← hcalls, receive_filter] at hresult
  have hstart : (callConnection w.id (TcGrpcBuffer.empty.pack request).1 :
      TcGrpcConnection ω).error = 0 := if_neg (not_lt.mpr h.submitted)
  have hgoes : ¬ (path.getD 0 0 ≠ 47 ∨ grpcLimit < request.length) := by
    rintro (hslash | hlong)
    · exact hslash hpath.1
    · exact absurd hlimit (not_le.mpr hlong)
  rw [call, cstring, cstring, if_neg hhost, if_neg hzero]
  simp only [if_neg hgoes, if_neg (not_le.mpr hauthority), h.connected, h.session, hcode, ne_eq,
    not_true_eq_false, Bool.true_eq_false, if_false, if_neg (not_lt.mpr h.submitted),
    h.exchange_eq, Option.map_some, herror, hstart, hstreams, List.headD_cons, hresult]
  rfl

/-- A handler that gives its request back. -/
def echo (request : List UInt8) (_ : Unit) : Option TcGrpcResponse := some (grpcResponse request 0)

/-- The turns of a call of `echo`: the request goes out, and the response comes in. -/
def echoWorld : CallWorld Unit :=
  ⟨0, true, 1,
    [⟨[.read 1 4 false, .read 1 9 false], 0, false, false, .notReady⟩,
      ⟨[], 0, false, false, .received
        [.header 1 (ascii ":status") (ascii "200"),
          .header 1 (ascii "content-type") (ascii "application/grpc"),
          .data 1 [0, 0, 0], .data 1 [0, 1, 7],
          .header 1 (ascii "grpc-status") (ascii "0"), .closed 1 0] true⟩], []⟩

/-- The callbacks of the server, with a stream 3 that has come no further than its path. -/
def echoEvents : List (Callback Unit) :=
  [.begin 1 .headers true, .begin 3 .headers true] ++
    ((requestHeaders (ascii "h") 5 (ascii "/e")).map fun h ↦ .header 1 h.1 h.2) ++
    [.header 3 (ascii ":path") (ascii "/e"), .frame 1 .headers false () false,
      .data 1 [0, 0, 0, 0, 1, 7], .frame 1 .data true () false, .read 1 100 false]

/-- A call of `echo`. -/
theorem call_carried_echo :
    call echoWorld (ascii "h") 5 (ascii "/e") [7] =
      some (requestHeaders (ascii "h") 5 (ascii "/e"), echoWorld.replies [7],
        outcome (routed [(ascii "/e", echo)] (ascii "/e") [7] ())) := by
  have hcarried : Carried [(ascii "/e", echo)] echoWorld (ascii "h") 5 (ascii "/e") [7]
      echoEvents () := {
    connected := rfl
    session := rfl
    submitted := by decide
    smooth := by simp [echoWorld, Turn.Smooth]
    own := by simp [echoWorld, CallWorld.calls, Turn.calls, Callback.id]
    open_before := by decide
    open_behind := rfl
    request_read := by decide
    request_comes := ⟨[[0, 0, 0, 0, 1, 7]], .data, [(100, false)], by decide, by decide, rfl⟩
    response_read := by decide
    response_comes := ⟨[[0, 0, 0], [0, 1, 7]], by decide, rfl⟩ }
  exact call_carried (by decide) (by decide) ⟨by decide, by decide⟩ (by decide) (by decide) hcarried

end TinyCPlus.Runtime
