import TinyCPlus.Runtime.GrpcStreams

/-!
# Streams do not see each other

The callbacks of a server's connection are the events of a list of records, one or more for
a stream, that are found by the number of the stream (`Library.Keyed`).
-/

namespace TinyCPlus.Runtime

open TinyCPlus.Library

namespace TcGrpcStream

variable {ω : Type*} (s : TcGrpcStream)

@[simp] theorem id_create (id : ℤ) : (create id).id = id := rfl

@[simp] theorem id_field (name value : List UInt8) : (s.field name value).1.id = s.id := by
  simp only [field, apply_ite Prod.fst, apply_ite TcGrpcStream.id, ite_self]

@[simp] theorem id_header (name value : List UInt8) : (s.header name value).1.id = s.id := by
  rw [header]
  split
  · rfl
  · exact id_field _ name value

@[simp] theorem id_data (chunk : List UInt8) : (s.data chunk).1.id = s.id := by
  rw [data]
  split <;> rfl

@[simp] theorem id_read (server : Bool) (capacity : ℕ) (refused : Bool) :
    (s.read server capacity refused).1.id = s.id := rfl

@[simp] theorem id_answer (routes : List (TcGrpcRoute ω)) (world : ω) :
    (s.answer routes world).1.id = s.id := by
  simp only [answer, apply_ite TcGrpcStream.id, ite_self]

end TcGrpcStream

variable {ω : Type*}

/-- What a server does with a callback and the stream that it finds. -/
def streamReact (routes : List (TcGrpcRoute ω)) :
    Callback ω → Option TcGrpcStream → Change TcGrpcStream × Reply
  | .begin id type request, _ =>
      if type = .headers ∧ request = true then (.push (.create id), .none) else (.keep, .none)
  | .header _ name value, some s => (.replace (s.header name value).1, (s.header name value).2)
  | .data _ chunk, some s => (.replace (s.data chunk).1, (s.data chunk).2)
  | .frame _ type endStream world _, some s =>
      if (type = .data ∨ type = .headers) ∧ endStream = true then
        (.replace (s.answer routes world).1, (s.answer routes world).2)
      else (.keep, .none)
  | .closed _ _, _ => (.remove, .none)
  | .read _ capacity refused, some s =>
      (.replace (s.read true capacity refused).1, (s.read true capacity refused).2)
  | _, none => (.keep, .none)

/-- The streams of a server's connection, found by their numbers. -/
def serverStreams (routes : List (TcGrpcRoute ω)) :
    Keyed ℤ TcGrpcStream (Callback ω) Reply where
  key := TcGrpcStream.id
  address := Callback.id
  react := streamReact routes
  own e found hfound := by
    cases e with
    | begin id type request =>
        rw [streamReact]
        split
        · exact decide_eq_true rfl
        · trivial
    | header id name value =>
        cases found with
        | none => trivial
        | some s => exact decide_eq_true ((s.id_header name value).trans (hfound s rfl))
    | data id chunk =>
        cases found with
        | none => trivial
        | some s => exact decide_eq_true ((s.id_data chunk).trans (hfound s rfl))
    | frame id type endStream world refused =>
        cases found with
        | none => trivial
        | some s =>
            rw [streamReact]
            split
            · exact decide_eq_true ((s.id_answer routes world).trans (hfound s rfl))
            · trivial
    | closed id error => trivial
    | read id capacity refused =>
        cases found with
        | none => trivial
        | some s => exact decide_eq_true (hfound s rfl)

section Refinement

variable (routes : List (TcGrpcRoute ω)) (c : TcGrpcConnection ω)

theorem found_eq_stream (e : Callback ω) :
    (serverStreams routes).found c.streams e = c.stream e.id := rfl

/-- A callback of a server's connection is an event of its streams. -/
theorem callback_eq_step (hserver : c.server = some routes) (e : Callback ω) :
    (c.callback e).1.server = some routes ∧
      ((c.callback e).1.streams, (c.callback e).2) = (serverStreams routes).step c.streams e := by
  rw [Keyed.step, found_eq_stream]
  cases e with
  | begin id type request =>
      by_cases hbegin : type = .headers ∧ request = true
      · simp [TcGrpcConnection.callback, serverStreams, streamReact, hserver, hbegin, Change.apply]
      · simp [TcGrpcConnection.callback, serverStreams, streamReact, hserver, hbegin, Change.apply]
  | header id name value =>
      cases hfound : c.stream id with
      | none =>
          simp [TcGrpcConnection.callback, Callback.id, hfound, hserver, serverStreams,
            streamReact, Change.apply]
      | some s =>
          simp only [TcGrpcConnection.callback, Callback.id, hfound]
          exact ⟨hserver, rfl⟩
  | data id chunk =>
      cases hfound : c.stream id with
      | none =>
          simp [TcGrpcConnection.callback, Callback.id, hfound, hserver, serverStreams,
            streamReact, Change.apply]
      | some s =>
          simp only [TcGrpcConnection.callback, Callback.id, hfound]
          exact ⟨hserver, rfl⟩
  | frame id type endStream world refused =>
      by_cases hend : (type = .data ∨ type = .headers) ∧ endStream = true
      · cases hfound : c.stream id with
        | none =>
            simp [TcGrpcConnection.callback, Callback.id, hfound, hserver, serverStreams,
              streamReact, Change.apply]
        | some s =>
            simp only [TcGrpcConnection.callback, Callback.id, hfound, hserver, if_pos hend,
              serverStreams, streamReact]
            cases refused <;> exact ⟨hserver, rfl⟩
      · cases hfound : c.stream id with
        | none =>
            simp [TcGrpcConnection.callback, Callback.id, hfound, hserver, hend, serverStreams,
              streamReact, Change.apply]
        | some s =>
            simp [TcGrpcConnection.callback, Callback.id, hfound, hserver, hend, serverStreams,
              streamReact, Change.apply]
  | closed id error =>
      simp only [TcGrpcConnection.callback, hserver, Option.isSome_some, if_true]
      exact ⟨trivial, rfl⟩
  | read id capacity refused =>
      cases hfound : c.stream id with
      | none =>
          simp [TcGrpcConnection.callback, Callback.id, hfound, hserver, serverStreams,
            streamReact, Change.apply]
      | some s =>
          simp only [TcGrpcConnection.callback, Callback.id, hfound, hserver, Option.isSome_some]
          exact ⟨hserver, rfl⟩

theorem run_eq_run (hserver : c.server = some routes) (events : List (Callback ω)) :
    ((c.run events).1.streams, (c.run events).2) =
      (serverStreams routes).run c.streams events := by
  induction events generalizing c with
  | nil => rfl
  | cons e rest ih =>
      obtain ⟨hkept, hstep⟩ := callback_eq_step routes c hserver e
      obtain ⟨hstreams, hreply⟩ := Prod.ext_iff.mp hstep
      have hrest := ih _ hkept
      obtain ⟨hlast, hreplies⟩ := Prod.ext_iff.mp hrest
      rw [TcGrpcConnection.run, Keyed.run, ← hstreams, ← hreply, ← hrest]
      rfl

end Refinement

/-- However the session orders the callbacks of the streams of a connection, the records of
a stream and the replies to its callbacks are those of its own callbacks alone. -/
theorem serve_interleaves (routes : List (TcGrpcRoute ω)) (events : List (Callback ω)) (id : ℤ) :
    ((TcGrpcConnection.serve routes).run (events.filter fun e ↦ decide (e.id = id))).1.streams =
        ((TcGrpcConnection.serve routes).run events).1.streams.filter (fun s ↦ decide (s.id = id)) ∧
      ((TcGrpcConnection.serve routes).run (events.filter fun e ↦ decide (e.id = id))).2 =
        ((TcGrpcConnection.serve routes).run events).2.filter fun o ↦ decide (o.1 = id) := by
  have hall := run_eq_run routes (.serve routes) rfl events
  have hown := run_eq_run routes (.serve routes) rfl (events.filter fun e ↦ decide (e.id = id))
  have hrun := (serverStreams routes).run_ofKey [] events id
  obtain ⟨hstreams, hreplies⟩ := Prod.ext_iff.mp hall
  obtain ⟨hstreams', hreplies'⟩ := Prod.ext_iff.mp hown
  obtain ⟨hrecords, hanswers⟩ := Prod.ext_iff.mp hrun
  dsimp only at hstreams hreplies hstreams' hreplies' hrecords hanswers
  rw [hstreams', hreplies', hstreams, hreplies]
  exact ⟨hrecords, hanswers⟩

end TinyCPlus.Runtime
