import TinyCPlus.Runtime.Reactor

/-!
# Every request is answered once

The log of a request says at every point what has happened to it.  Three
invariants carry this over all runs: what a request and its log say about each
other, who has the requests that the reactor works on, and which of the sockets
opened for connects are still open.
-/

namespace TinyCPlus.Runtime

open TinyCPlus.Library

/-! ## Requests -/

namespace RequestPoint

/-- The request is on its way through `tc_io_complete` or behind it. -/
def settled : RequestPoint → Bool
  | .completing | .releasing | .ending | .freeing | .freed => true
  | _ => false

/-- The request is neither in the queue of the reactor nor taken out of it. -/
def outside : RequestPoint → Bool
  | .listed | .unlinked => false
  | _ => true

theorem outside_ne {p : RequestPoint} (h : p.outside = true) : p ≠ .listed ∧ p ≠ .unlinked := by
  constructor
  · rintro rfl
    cases h
  · rintro rfl
    cases h

/-- What has happened to a request with the given result and error. -/
def log (result error : ℤ) : RequestPoint → List RequestEvent
  | .absent => []
  | .created | .resolving | .enqueuing | .listed | .unlinked | .completing => [.begun]
  | .releasing | .ending => [.begun, .completed result error]
  | .freeing => [.begun, .completed result error, .ended]
  | .freed => [.begun, .completed result error, .ended, .freed]

end RequestPoint

namespace TcIoRequest

/-- A write has handed over the bytes ahead of its offset, in order, and the
length of a write is that of its bytes. -/
structure WriteSound (r : TcIoRequest) : Prop where
  handed : r.handed = r.data.take r.offset
  offset : r.offset ≤ r.data.length
  length : r.length = r.data.length

/-- A write that is over without an error is complete, or a `send` returned 0. -/
def Finished (r : TcIoRequest) : Prop :=
  r.error = 0 → r.offset = r.length ∨ r.stopped = true

variable {r : TcIoRequest}

section Transfer

theorem transfer_offset (r : TcIoRequest) (n : ℕ) : (r.transfer n).offset = r.offset + n := by
  rw [transfer]
  split <;> rfl

theorem transfer_handed (hkind : r.kind = .write) (n : ℕ) :
    (r.transfer n).handed = r.handed ++ (r.data.drop r.offset).take n := by
  rw [transfer]
  split <;> exact if_pos hkind

theorem transfer_data (r : TcIoRequest) (n : ℕ) : (r.transfer n).data = r.data := by
  rw [transfer]
  split <;> rfl

theorem transfer_length (r : TcIoRequest) (n : ℕ) : (r.transfer n).length = r.length := by
  rw [transfer]
  split <;> rfl

theorem transfer_writeSound (hr : r.WriteSound) (hkind : r.kind = .write) {n : ℕ}
    (hn : n ≤ r.chunk) : (r.transfer n).WriteSound where
  handed := by
    rw [transfer_handed hkind, transfer_data, transfer_offset, hr.handed, List.take_add]
  offset := by
    have hoffset := hr.offset
    have hlength := hr.length
    rw [transfer_offset, transfer_data]
    rw [chunk] at hn
    omega
  length := by
    rw [transfer_length, transfer_data, hr.length]

/-- A transfer that ends a write has moved all of it, or nothing. -/
theorem transfer_finished (hkind : r.kind = .write) (hdone : r.done = false) {n : ℕ}
    (h : (r.transfer n).done = true) : (r.transfer n).Finished := by
  rw [transfer] at h ⊢
  intro _
  split
  · rename_i hover
    rcases hover with hread | hoffset | hzero
    · rw [hkind] at hread
      cases hread
    · exact .inl hoffset
    · right
      simp [moved, hzero]
  · rename_i hnot
    rw [if_neg hnot] at h
    exact absurd (hdone.symm.trans h) (by decide)

end Transfer

/-- What is left of a request by a look at it. -/
inductive Polled (r : TcIoRequest) : TcIoRequest → Prop where
  | same : Polled r r
  | failed (error : ℤ) (h : r.kind = .timer ∨ error ≠ 0) : Polled r (r.fail error)
  | connected (status : ℤ) (hkind : r.kind = .connect) :
      Polled r { r with result := r.socket, error := status, done := true }
  | accepted (socket : ℤ) (hkind : r.kind = .accept) :
      Polled r { r with result := socket, done := true }
  | transferred (n : ℕ) (hn : n ≤ r.chunk) (hkind : r.kind = .read ∨ r.kind = .write) :
      Polled r (r.transfer n)

theorem serve_polled (r : TcIoRequest) (v : Verdict) (htimer : r.kind ≠ .timer) :
    r.Polled (r.serve v) := by
  rw [serve]
  split
  · rename_i hkind
    exact .connected v.status hkind
  · rename_i hkind
    split
    · exact .accepted _ hkind
    · split
      · exact .same
      · exact .failed 13 (.inr (by decide))
  · rename_i hconnect haccept
    have hkind : r.kind = .read ∨ r.kind = .write := by
      cases hkind : r.kind with
      | read => exact .inl rfl
      | write => exact .inr rfl
      | accept => exact absurd hkind haccept
      | connect => exact absurd hkind hconnect
      | timer => exact absurd hkind htimer
    split
    · exact .transferred _ (min_le_right _ _) hkind
    · split
      · exact .same
      · exact .failed 13 (.inr (by decide))

theorem poll_polled (r : TcIoRequest) (now : ℕ) (v : Verdict) : r.Polled (r.poll now v) := by
  rw [poll]
  split
  · exact .failed 1 (.inr (by decide))
  · split
    · by_cases hkind : r.kind = .timer
      · exact .failed _ (.inl hkind)
      · rw [if_neg hkind]
        exact .failed 4 (.inr (by decide))
    · split
      · rename_i hready
        exact serve_polled r v hready.1
      · exact .same

namespace Polled

variable {r' : TcIoRequest}

theorem kind (h : r.Polled r') : r'.kind = r.kind := by
  cases h with
  | transferred n hn hkind =>
      rw [transfer]
      split <;> rfl
  | _ => rfl

theorem socket (h : r.Polled r') : r'.socket = r.socket := by
  cases h with
  | transferred n hn hkind =>
      rw [transfer]
      split <;> rfl
  | _ => rfl

theorem deadline (h : r.Polled r') : r'.deadline = r.deadline := by
  cases h with
  | transferred n hn hkind =>
      rw [transfer]
      split <;> rfl
  | _ => rfl

theorem writeSound (h : r.Polled r') (hkind : r.kind = .write) (hr : r.WriteSound) :
    r'.WriteSound := by
  cases h with
  | same => exact hr
  | failed error _ => exact ⟨hr.handed, hr.offset, hr.length⟩
  | connected status hconnect => exact ⟨hr.handed, hr.offset, hr.length⟩
  | accepted socket haccept => exact ⟨hr.handed, hr.offset, hr.length⟩
  | transferred n hn _ => exact transfer_writeSound hr hkind hn

/-- A request that is done now is over for a reason. -/
theorem finished (h : r.Polled r') (hkind : r.kind = .write) (hdone : r.done = false)
    (hdone' : r'.done = true) : r'.Finished := by
  cases h with
  | same => exact absurd (hdone.symm.trans hdone') (by decide)
  | failed error herror =>
      intro hzero
      rcases herror with htimer | herror
      · rw [hkind] at htimer
        cases htimer
      · exact absurd hzero herror
  | connected status hconnect =>
      rw [hkind] at hconnect
      cases hconnect
  | accepted socket haccept =>
      rw [hkind] at haccept
      cases haccept
  | transferred n hn _ => exact transfer_finished hkind hdone hdone'

theorem connected_result (h : r.Polled r') (hkind : r.kind = .connect) (hdone : r.done = false)
    (hdone' : r'.done = true) (herror : r'.error = 0) : r'.result = r'.socket := by
  cases h with
  | same => exact absurd (hdone.symm.trans hdone') (by decide)
  | failed error hfailed =>
      rcases hfailed with htimer | hfailed
      · rw [hkind] at htimer
        cases htimer
      · exact absurd herror hfailed
  | connected status hconnect => rfl
  | accepted socket haccept =>
      rw [hkind] at haccept
      cases haccept
  | transferred n hn hmoved =>
      rw [hkind] at hmoved
      rcases hmoved with hmoved | hmoved <;> cases hmoved

end Polled

end TcIoRequest

/-! ## What a request and its log say about each other -/

/-- A request at one of its points. -/
structure RequestSlot.Sound (slot : RequestSlot) : Prop where
  log : slot.log = slot.point.log slot.request.result slot.request.error
  write : slot.request.kind = .write → slot.request.WriteSound
  waiting : slot.point ≠ .unlinked → slot.point.settled = false → slot.request.done = false
  finished : slot.request.kind = .write → slot.point = .unlinked ∨ slot.point.settled = true →
    slot.request.Finished
  connected : slot.request.kind = .connect → slot.point = .unlinked ∨ slot.point.settled = true →
    slot.request.error = 0 → slot.request.result = slot.request.socket
  created : slot.point = .created → slot.request.kind ≠ .connect
  resolving : slot.point = .resolving → slot.request.kind = .connect
  timer : slot.point ≠ .absent → slot.request.kind = .timer → slot.request.deadline ≠ 0

namespace RequestSlot

variable {slot : RequestSlot}

theorem absent_sound : absent.Sound where
  log := rfl
  write h := by cases h
  waiting _ _ := rfl
  finished h := by cases h
  connected h := by cases h
  created h := by cases h
  resolving h := by cases h
  timer h := absurd rfl h

/-- A new request, on its way to a check, a resolver job or the queue. -/
theorem new_sound {kind : TcIoKind} {socket : ℤ} {data : List UInt8} {length timeout now : ℕ}
    {token : Bool} {point : RequestPoint}
    (hpoint : point = .created ∧ kind ≠ .connect ∨ point = .resolving ∧ kind = .connect ∨
      point = .enqueuing)
    (hwrite : kind = .write → length = data.length) (htimer : kind = .timer → timeout ≠ 0) :
    (new (.new kind socket data length timeout now token) point).Sound where
  log := by rcases hpoint with ⟨rfl, -⟩ | ⟨rfl, -⟩ | rfl <;> rfl
  write h := ⟨rfl, Nat.zero_le _, hwrite h⟩
  waiting _ _ := rfl
  finished _ h := by
    rcases hpoint with ⟨rfl, -⟩ | ⟨rfl, -⟩ | rfl <;> rcases h with h | h <;> cases h
  connected _ h := by
    rcases hpoint with ⟨rfl, -⟩ | ⟨rfl, -⟩ | rfl <;> rcases h with h | h <;> cases h
  created h := by
    rcases hpoint with ⟨-, hkind⟩ | ⟨rfl, -⟩ | rfl
    · exact hkind
    · cases h
    · cases h
  resolving h := by
    rcases hpoint with ⟨rfl, -⟩ | ⟨-, hkind⟩ | rfl
    · cases h
    · exact hkind
    · cases h
  timer _ h := by
    have htimeout := htimer h
    change (if timeout = 0 then 0 else
      if timeout > TcIoRequest.uint64Max - now then TcIoRequest.uint64Max else now + timeout) ≠ 0
    rw [if_neg htimeout]
    split
    · decide
    · omega

/-- A request on its way is completed with an error. -/
theorem Sound.complete (h : slot.Sound) (hlog : slot.log = [.begun]) (hpoint : slot.point ≠ .absent)
    {error : ℤ} (herror : error ≠ 0) : (slot.complete error).Sound where
  log := hlog
  write hkind := ⟨(h.write hkind).handed, (h.write hkind).offset, (h.write hkind).length⟩
  waiting _ hsettled := by cases hsettled
  finished _ _ hzero := absurd hzero herror
  connected _ _ hzero := absurd hzero herror
  created hcreated := by cases hcreated
  resolving hresolving := by cases hresolving
  timer _ := h.timer hpoint

theorem Sound.check (h : slot.Sound) (hpoint : slot.point = .created) (nonblock : Bool) :
    (slot.check nonblock).Sound := by
  have hlog : slot.log = [.begun] := by
    rw [h.log, hpoint]
    rfl
  have hkind := h.created hpoint
  have hnot : slot.point ≠ .absent := by
    rw [hpoint]
    decide
  have hdone : slot.request.done = false := h.waiting (by rw [hpoint]; decide) (by rw [hpoint]; rfl)
  rw [RequestSlot.check]
  split
  · exact h.complete hlog hnot (by decide)
  · split
    · rename_i hempty
      have hfinished (hwrite : slot.request.kind = .write) : slot.request.Finished := by
        intro _
        have hsound := h.write hwrite
        have hoffset := hsound.offset
        rw [← hsound.length, hempty.1] at hoffset
        left
        rw [hempty.1]
        exact Nat.le_zero.1 hoffset
      exact {
        log := hlog
        write := h.write
        waiting := fun _ hsettled ↦ nomatch hsettled
        finished := fun hwrite _ ↦ hfinished hwrite
        connected := fun hconnect ↦ absurd hconnect hkind
        created := fun hcreated ↦ nomatch hcreated
        resolving := fun hresolving ↦ nomatch hresolving
        timer := fun _ ↦ h.timer hnot }
    · exact {
        log := hlog
        write := h.write
        waiting := fun _ _ ↦ hdone
        finished := fun _ hover ↦ by rcases hover with hover | hover <;> cases hover
        connected := fun hconnect ↦ absurd hconnect hkind
        created := fun hcreated ↦ nomatch hcreated
        resolving := fun hresolving ↦ nomatch hresolving
        timer := fun _ ↦ h.timer hnot }

/-- A listed request that is not over stays in the list. -/
theorem Sound.polled (h : slot.Sound) (hpoint : slot.point = .listed) {r : TcIoRequest}
    (hr : slot.request.Polled r) (hdone : r.done = false) :
    ({ slot with request := r } : RequestSlot).Sound where
  log := by
    rw [h.log, hpoint]
    rfl
  write hkind := hr.writeSound (hr.kind ▸ hkind) (h.write (hr.kind ▸ hkind))
  waiting _ _ := hdone
  finished _ hover := by
    change slot.point = .unlinked ∨ slot.point.settled = true at hover
    rw [hpoint] at hover
    rcases hover with hover | hover <;> cases hover
  connected _ hover := by
    change slot.point = .unlinked ∨ slot.point.settled = true at hover
    rw [hpoint] at hover
    rcases hover with hover | hover <;> cases hover
  created hcreated := by
    change slot.point = .created at hcreated
    rw [hpoint] at hcreated
    cases hcreated
  resolving hresolving := by
    change slot.point = .resolving at hresolving
    rw [hpoint] at hresolving
    cases hresolving
  timer hnot hkind := by
    change r.deadline ≠ 0
    rw [hr.deadline]
    exact h.timer hnot (hr.kind ▸ hkind)

/-- A listed request that is over is taken out of the list. -/
theorem Sound.unlinked (h : slot.Sound) (hpoint : slot.point = .listed) {r : TcIoRequest}
    (hr : slot.request.Polled r) (hdone : r.done = true) :
    ({ slot with request := r, point := .unlinked } : RequestSlot).Sound where
  log := by
    rw [h.log, hpoint]
    rfl
  write hkind := hr.writeSound (hr.kind ▸ hkind) (h.write (hr.kind ▸ hkind))
  waiting hnot _ := absurd rfl hnot
  finished hkind _ := hr.finished (hr.kind ▸ hkind)
    (h.waiting (by rw [hpoint]; decide) (by rw [hpoint]; rfl)) hdone
  connected hkind _ := hr.connected_result (hr.kind ▸ hkind)
    (h.waiting (by rw [hpoint]; decide) (by rw [hpoint]; rfl)) hdone
  created hcreated := by cases hcreated
  resolving hresolving := by cases hresolving
  timer _ hkind := by
    change r.deadline ≠ 0
    rw [hr.deadline]
    exact h.timer (by rw [hpoint]; decide) (hr.kind ▸ hkind)

theorem Sound.completing (h : slot.Sound) (hpoint : slot.point = .unlinked) :
    ({ slot with point := .completing } : RequestSlot).Sound where
  log := by
    rw [h.log, hpoint]
    rfl
  write := h.write
  waiting _ hsettled := by cases hsettled
  finished hkind _ := h.finished hkind (.inl hpoint)
  connected hkind _ := h.connected hkind (.inl hpoint)
  created hcreated := by cases hcreated
  resolving hresolving := by cases hresolving
  timer _ := h.timer (by rw [hpoint]; decide)

theorem Sound.listed (h : slot.Sound) (hpoint : slot.point = .enqueuing) :
    ({ slot with point := .listed } : RequestSlot).Sound where
  log := by
    rw [h.log, hpoint]
    rfl
  write := h.write
  waiting _ _ := h.waiting (by rw [hpoint]; decide) (by rw [hpoint]; rfl)
  finished _ hover := by rcases hover with hover | hover <;> cases hover
  connected _ hover := by rcases hover with hover | hover <;> cases hover
  created hcreated := by cases hcreated
  resolving hresolving := by cases hresolving
  timer _ := h.timer (by rw [hpoint]; decide)

/-- The points that `advance` starts from and the ones that it leads to. -/
theorem advance_cases {slot' : RequestSlot} (h : slot.advance = some slot') :
    slot'.request = slot.request ∧ slot.point.settled = true ∧ slot'.point.settled = true ∧
      slot.point ≠ .freed ∧
      (slot.log = slot.point.log slot.request.result slot.request.error →
        slot'.log = slot'.point.log slot.request.result slot.request.error) := by
  rw [advance] at h
  split at h
  · rename_i hpoint
    cases h
    refine ⟨rfl, by rw [hpoint]; rfl, rfl, by rw [hpoint]; decide, fun hlog ↦ ?_⟩
    rw [hlog, hpoint]
    rfl
  · rename_i hpoint
    cases h
    refine ⟨rfl, by rw [hpoint]; rfl, rfl, by rw [hpoint]; decide, fun hlog ↦ ?_⟩
    rw [hlog, hpoint]
    rfl
  · rename_i hpoint
    cases h
    refine ⟨rfl, by rw [hpoint]; rfl, rfl, by rw [hpoint]; decide, fun hlog ↦ ?_⟩
    rw [hlog, hpoint]
    rfl
  · rename_i hpoint
    cases h
    refine ⟨rfl, by rw [hpoint]; rfl, rfl, by rw [hpoint]; decide, fun hlog ↦ ?_⟩
    rw [hlog, hpoint]
    rfl
  · cases h

theorem Sound.advance (h : slot.Sound) {slot' : RequestSlot} (hslot : slot.advance = some slot') :
    slot'.Sound := by
  obtain ⟨hrequest, hsettled, hsettled', -, hlog⟩ := advance_cases hslot
  have hpoint (point : RequestPoint) (hp : point.settled = false) : slot'.point ≠ point := by
    rintro rfl
    rw [hp] at hsettled'
    cases hsettled'
  refine ⟨?_, ?_, ?_, ?_, ?_, ?_, ?_, ?_⟩
  · rw [hrequest]
    exact hlog h.log
  · rw [hrequest]
    exact h.write
  · intro _ hnot
    rw [hsettled'] at hnot
    cases hnot
  · rw [hrequest]
    exact fun hkind _ ↦ h.finished hkind (.inr hsettled)
  · rw [hrequest]
    exact fun hkind _ ↦ h.connected hkind (.inr hsettled)
  · exact fun hcreated ↦ absurd hcreated (hpoint _ rfl)
  · exact fun hresolving ↦ absurd hresolving (hpoint _ rfl)
  · rw [hrequest]
    refine fun _ ↦ h.timer ?_
    rintro habsent
    rw [habsent] at hsettled
    cases hsettled

/-- A connect has got its socket. -/
theorem Sound.connecting (h : slot.Sound) (hpoint : slot.point = .resolving) (k result : ℤ)
    {point : RequestPoint} (hnext : point = .completing ∧ result = k ∨ point = .enqueuing) :
    ({ slot with
        request := { slot.request with error := 0, socket := k, result := result }
        point := point } : RequestSlot).Sound where
  log := by
    rw [h.log, hpoint]
    rcases hnext with ⟨rfl, -⟩ | rfl <;> rfl
  write hkind := by
    have hconnect := h.resolving hpoint
    change slot.request.kind = .write at hkind
    rw [hconnect] at hkind
    cases hkind
  waiting _ _ := h.waiting (by rw [hpoint]; decide) (by rw [hpoint]; rfl)
  finished hkind := by
    have hconnect := h.resolving hpoint
    change slot.request.kind = .write at hkind
    rw [hconnect] at hkind
    cases hkind
  connected _ hover _ := by
    rcases hnext with ⟨rfl, rfl⟩ | rfl
    · rfl
    · rcases hover with hover | hover <;> cases hover
  created hcreated := by rcases hnext with ⟨rfl, -⟩ | rfl <;> cases hcreated
  resolving hresolving := by rcases hnext with ⟨rfl, -⟩ | rfl <;> cases hresolving
  timer _ := h.timer (by rw [hpoint]; decide)

end RequestSlot

/-! ## Who has the requests -/

/-- The requests, the queue of the reactor and what it has taken out of it. -/
structure Reactor.Sound (s : Reactor) : Prop where
  slots : ∀ id, (s.slots id).Sound
  fresh : ∀ id, s.next ≤ id → (s.slots id).point = .absent
  listed : ∀ id, id ∈ s.ioRequests ↔ (s.slots id).point = .listed
  unlinked : ∀ id, id ∈ s.complete ↔ (s.slots id).point = .unlinked
  requestsNodup : s.ioRequests.Nodup
  completeNodup : s.complete.Nodup
  count : s.ioCount = s.ioRequests.length
  bound : s.ioCount ≤ 32
  busy : ∀ id, s.busy = some id →
    (s.slots id).point.settled = true ∧ (s.slots id).point ≠ .freed
  fault : s.fault = false

namespace Reactor

open RequestPoint

variable {s : Reactor}

theorem set_slots (s : Reactor) (id : ℕ) (slot : RequestSlot) :
    (s.set id slot).slots = Function.update s.slots id slot := rfl

theorem start_sound : start.Sound where
  slots _ := RequestSlot.absent_sound
  fresh _ _ := rfl
  listed id := iff_of_false List.not_mem_nil (by rintro ⟨⟩)
  unlinked id := iff_of_false List.not_mem_nil (by rintro ⟨⟩)
  requestsNodup := List.nodup_nil
  completeNodup := List.nodup_nil
  count := rfl
  bound := Nat.zero_le _
  busy _ h := nomatch h
  fault := rfl

/-- A step that changes one request, with the lists that follow its point. -/
theorem Sound.move (h : s.Sound) {s' : Reactor} {id : ℕ} {slot : RequestSlot} (hslot : slot.Sound)
    (hslots : s'.slots = Function.update s.slots id slot)
    (hnext : s.next ≤ s'.next) (hid : id < s'.next)
    (hlisted : ∀ j, j ∈ s'.ioRequests ↔
      j = id ∧ slot.point = .listed ∨ j ≠ id ∧ j ∈ s.ioRequests)
    (hunlinked : ∀ j, j ∈ s'.complete ↔
      j = id ∧ slot.point = .unlinked ∨ j ≠ id ∧ j ∈ s.complete)
    (hnodup : s'.ioRequests.Nodup ∧ s'.complete.Nodup)
    (hcount : s'.ioCount = s'.ioRequests.length ∧ s'.ioCount ≤ 32)
    (hbusy : ∀ j, s'.busy = some j →
      (j = id → slot.point.settled = true ∧ slot.point ≠ .freed) ∧
        (j ≠ id → s.busy = some j)) (hfault : s'.fault = false) : s'.Sound := by
  have hself : s'.slots id = slot := by rw [hslots, Function.update_self]
  have hother (j : ℕ) (hj : j ≠ id) : s'.slots j = s.slots j := by
    rw [hslots, Function.update_of_ne hj]
  refine ⟨?_, ?_, ?_, ?_, hnodup.1, hnodup.2, hcount.1, hcount.2, ?_, hfault⟩
  · intro j
    by_cases hj : j = id
    · rw [hj, hself]
      exact hslot
    · rw [hother j hj]
      exact h.slots j
  · intro j hj
    rw [hother j (by omega)]
    exact h.fresh j (by omega)
  · intro j
    rw [hlisted]
    by_cases hj : j = id
    · rw [hj, hself]
      simp
    · rw [hother j hj, ← h.listed]
      simp [hj]
  · intro j
    rw [hunlinked]
    by_cases hj : j = id
    · rw [hj, hself]
      simp
    · rw [hother j hj, ← h.unlinked]
      simp [hj]
  · intro j hj
    obtain ⟨hself', hother'⟩ := hbusy j hj
    by_cases heq : j = id
    · rw [heq, hself]
      exact hself' heq
    · rw [hother j heq]
      exact h.busy j (hother' heq)

/-- A step on a request that is neither in the queue nor taken out of it. -/
theorem Sound.set (h : s.Sound) {s' : Reactor} {id : ℕ} {slot : RequestSlot} (hslot : slot.Sound)
    (hslots : s'.slots = Function.update s.slots id slot)
    (hnext : s.next ≤ s'.next) (hid : id < s'.next)
    (hlists : s'.ioRequests = s.ioRequests ∧ s'.ioCount = s.ioCount ∧ s'.complete = s.complete ∧
      s'.fault = s.fault)
    (hbefore : (s.slots id).point.outside = true) (hbehind : slot.point.outside = true)
    (hbusy : ∀ j, s'.busy = some j → s.busy = some j ∧
      (j = id → slot.point.settled = true ∧ slot.point ≠ .freed)) : s'.Sound := by
  obtain ⟨hrequests, hcount, hcomplete, hfault⟩ := hlists
  refine h.move hslot hslots hnext hid ?_ ?_ ?_ ?_ ?_ (hfault.trans h.fault)
  · intro j
    rw [hrequests]
    by_cases hj : j = id
    · have hnot : j ∉ s.ioRequests := by
        rw [h.listed, hj]
        exact (outside_ne hbefore).1
      simp [hj, hj ▸ hnot, (outside_ne hbehind).1]
    · simp [hj]
  · intro j
    rw [hcomplete]
    by_cases hj : j = id
    · have hnot : j ∉ s.complete := by
        rw [h.unlinked, hj]
        exact (outside_ne hbefore).2
      simp [hj, hj ▸ hnot, (outside_ne hbehind).2]
    · simp [hj]
  · rw [hrequests, hcomplete]
    exact ⟨h.requestsNodup, h.completeNodup⟩
  · rw [hcount, hrequests]
    exact ⟨h.count, h.bound⟩
  · intro j hj
    exact ⟨(hbusy j hj).2, fun _ ↦ (hbusy j hj).1⟩

theorem Sound.lt_next (h : s.Sound) {id : ℕ} (hpoint : (s.slots id).point ≠ .absent) :
    id < s.next := by
  by_contra hle
  exact hpoint (h.fresh id (Nat.not_lt.1 hle))

theorem Sound.not_busy (h : s.Sound) {id : ℕ} (hpoint : (s.slots id).point.settled = false) :
    s.busy ≠ some id := by
  intro hbusy
  rw [(h.busy id hbusy).1] at hpoint
  cases hpoint

theorem closeSocket_eq (s : Reactor) (slot : RequestSlot) :
    s.closeSocket slot = s ∨ s.closeSocket slot =
      { s with closed := slot.request.socket :: s.closed } := by
  rw [closeSocket]
  split
  · exact .inr rfl
  · exact .inl rfl

theorem Sound.create (h : s.Sound) {r : TcIoRequest} {point : RequestPoint}
    (hsound : (RequestSlot.new r point).Sound)
    (hpoint : point = .created ∨ point = .resolving ∨ point = .enqueuing) :
    (s.create r point).Sound := by
  have habsent : (s.slots s.next).point = .absent := h.fresh s.next le_rfl
  refine h.set hsound rfl (Nat.le_succ _) (Nat.lt_succ_self _) ⟨rfl, rfl, rfl, rfl⟩ ?_ ?_ ?_
  · rw [habsent]
    rfl
  · rcases hpoint with rfl | rfl | rfl <;> rfl
  · intro j hj
    refine ⟨hj, fun heq ↦ ?_⟩
    have hnot : s.busy ≠ some s.next := h.not_busy (by rw [habsent]; rfl)
    exact absurd (heq ▸ hj) hnot

/-- A step within a request, with nothing but sockets beside it. -/
theorem Sound.change (h : s.Sound) {s' : Reactor} {id : ℕ} {slot : RequestSlot}
    (hslot : slot.Sound) (hs' : ∃ opened closed,
      s' = { s with slots := Function.update s.slots id slot, opened := opened, closed := closed })
    (hbefore : (s.slots id).point = .created ∨ (s.slots id).point = .resolving ∨
      (s.slots id).point = .enqueuing)
    (hbehind : slot.point.outside = true) : s'.Sound := by
  obtain ⟨opened, closed, rfl⟩ := hs'
  have hunsettled : (s.slots id).point.settled = false := by
    rcases hbefore with hpoint | hpoint | hpoint <;> rw [hpoint] <;> rfl
  have hid : id < s.next := h.lt_next (by
    rcases hbefore with hpoint | hpoint | hpoint <;> rw [hpoint] <;> decide)
  refine h.set hslot rfl le_rfl hid ⟨rfl, rfl, rfl, rfl⟩ ?_ hbehind ?_
  · rcases hbefore with hpoint | hpoint | hpoint <;> rw [hpoint] <;> rfl
  · intro j hj
    exact ⟨hj, fun heq ↦ absurd (heq ▸ hj) (h.not_busy hunsettled)⟩

theorem check_point (slot : RequestSlot) (nonblock : Bool) :
    (slot.check nonblock).point = .completing ∨ (slot.check nonblock).point = .enqueuing := by
  rw [RequestSlot.check]
  split
  · exact .inl rfl
  · split
    · exact .inl rfl
    · exact .inr rfl

theorem Sound.check (h : s.Sound) {id : ℕ} (hpoint : (s.slots id).point = .created)
    (nonblock : Bool) : (s.set id ((s.slots id).check nonblock)).Sound := by
  refine h.change ((h.slots id).check hpoint nonblock) ⟨s.opened, s.closed, rfl⟩ (.inl hpoint) ?_
  rcases check_point (s.slots id) nonblock with hnew | hnew <;> rw [hnew] <;> rfl

theorem Sound.resolve (h : s.Sound) {id : ℕ} (hpoint : (s.slots id).point = .resolving)
    {resolution : Resolution} (herror : ∀ error, resolution = .failed error → error ≠ 0) :
    (s.resolve id resolution).Sound := by
  have hlog : (s.slots id).log = [.begun] := by
    rw [(h.slots id).log, hpoint]
    rfl
  have hnot : (s.slots id).point ≠ .absent := by
    rw [hpoint]
    decide
  cases resolution with
  | failed error =>
      exact h.change ((h.slots id).complete hlog hnot (herror error rfl))
        ⟨s.opened, s.closed, rfl⟩ (.inr (.inl hpoint)) rfl
  | addresses outcomes =>
      rw [Reactor.resolve]
      rcases connectLoop s.opened.length outcomes with ⟨closed, next, outcome⟩
      cases outcome with
      | failed =>
          exact h.change ((h.slots id).complete hlog hnot (by decide)) ⟨_, _, rfl⟩
            (.inr (.inl hpoint)) rfl
      | connected k =>
          exact h.change ((h.slots id).connecting hpoint k k (.inl ⟨rfl, rfl⟩)) ⟨_, _, rfl⟩
            (.inr (.inl hpoint)) rfl
      | pending k =>
          exact h.change ((h.slots id).connecting hpoint k _ (.inr rfl)) ⟨_, _, rfl⟩
            (.inr (.inl hpoint)) rfl

theorem Sound.enqueue (h : s.Sound) {id : ℕ} (hpoint : (s.slots id).point = .enqueuing) :
    (s.enqueue id).Sound := by
  have hlog : (s.slots id).log = [.begun] := by
    rw [(h.slots id).log, hpoint]
    rfl
  have hnot : (s.slots id).point ≠ .absent := by
    rw [hpoint]
    decide
  rw [Reactor.enqueue]
  split
  · have herror : (8 : ℤ) ≠ 0 := by decide
    refine h.change ((h.slots id).complete hlog hnot herror) ?_ (.inr (.inr hpoint)) rfl
    rcases closeSocket_eq s (s.slots id) with hclose | hclose <;> rw [hclose] <;>
      exact ⟨_, _, rfl⟩
  · rename_i hfull
    have hrequests : id ∉ s.ioRequests := by
      rw [h.listed, hpoint]
      decide
    have hcomplete : id ∉ s.complete := by
      rw [h.unlinked, hpoint]
      decide
    refine h.move ((h.slots id).listed hpoint) rfl le_rfl (h.lt_next hnot) ?_ ?_
      ⟨List.nodup_cons.2 ⟨hrequests, h.requestsNodup⟩, h.completeNodup⟩ ⟨?_, ?_⟩ ?_ h.fault
    · intro j
      change j ∈ id :: s.ioRequests ↔ _
      by_cases hj : j = id <;> simp [hj]
    · intro j
      change j ∈ s.complete ↔ _
      by_cases hj : j = id
      · simp [hj, hcomplete]
      · simp [hj]
    · change s.ioCount + 1 = (id :: s.ioRequests).length
      rw [h.count, List.length_cons]
    · change s.ioCount + 1 ≤ 32
      omega
    · intro j hj
      have hbusy : s.busy ≠ some id := h.not_busy (by rw [hpoint]; rfl)
      exact ⟨fun heq ↦ absurd (heq ▸ hj) hbusy, fun _ ↦ hj⟩

theorem Sound.allocated (h : s.Sound) {id : ℕ} {point : RequestPoint}
    (hpoint : (s.slots id).point = point) (hnot : point ≠ .absent ∧ point ≠ .freed) :
    (s.fault || !(s.slots id).allocated) = false := by
  rw [h.fault, RequestSlot.allocated, hpoint]
  simp [hnot]

/-- A look at a request of the list that stays in it. -/
theorem Sound.keep (h : s.Sound) {id : ℕ} (hlisted : id ∈ s.ioRequests) {r : TcIoRequest}
    (hr : (s.slots id).request.Polled r) (hdone : r.done = false) :
    ({ s with fault := s.fault || !(s.slots id).allocated }.set id
      { s.slots id with request := r }).Sound := by
  have hpoint := (h.listed id).1 hlisted
  refine h.move ((h.slots id).polled hpoint hr hdone) rfl le_rfl
    (h.lt_next (by rw [hpoint]; decide)) ?_ ?_ ⟨h.requestsNodup, h.completeNodup⟩
    ⟨h.count, h.bound⟩ ?_ (h.allocated hpoint ⟨by decide, by decide⟩)
  · intro j
    change j ∈ s.ioRequests ↔ _
    by_cases hj : j = id
    · simp [hj, hpoint, hlisted]
    · simp [hj]
  · intro j
    change j ∈ s.complete ↔ _
    rw [h.unlinked]
    by_cases hj : j = id
    · simp [hj, hpoint]
    · simp [hj]
  · intro j hj
    have hbusy : s.busy ≠ some id := h.not_busy (by rw [hpoint]; rfl)
    exact ⟨fun heq ↦ absurd (heq ▸ hj) hbusy, fun _ ↦ hj⟩

/-- A look at a request of the list that is over. -/
theorem Sound.unlink (h : s.Sound) {id : ℕ} {kept rest : List ℕ}
    (hsplit : s.ioRequests = kept ++ id :: rest) {r : TcIoRequest}
    (hr : (s.slots id).request.Polled r) (hdone : r.done = true) :
    ({ { s with fault := s.fault || !(s.slots id).allocated }.set id
        { s.slots id with request := r, point := .unlinked } with
      ioRequests := kept ++ rest
      complete := id :: s.complete
      ioCount := s.ioCount - 1 } : Reactor).Sound := by
  have hlisted : id ∈ s.ioRequests := by
    rw [hsplit]
    exact List.mem_append_right _ List.mem_cons_self
  have hpoint := (h.listed id).1 hlisted
  have hnodup := h.requestsNodup
  rw [hsplit, List.nodup_middle, List.nodup_cons] at hnodup
  have hcomplete : id ∉ s.complete := by
    rw [h.unlinked, hpoint]
    decide
  refine h.move ((h.slots id).unlinked hpoint hr hdone) rfl le_rfl
    (h.lt_next (by rw [hpoint]; decide)) ?_ ?_
    ⟨hnodup.2, List.nodup_cons.2 ⟨hcomplete, h.completeNodup⟩⟩ ⟨?_, ?_⟩ ?_
    (h.allocated hpoint ⟨by decide, by decide⟩)
  · intro j
    change j ∈ kept ++ rest ↔ _
    rw [hsplit]
    by_cases hj : j = id
    · rw [hj]
      simpa using hnodup.1
    · simp [hj]
  · intro j
    change j ∈ id :: s.complete ↔ _
    by_cases hj : j = id <;> simp [hj]
  · change s.ioCount - 1 = (kept ++ rest).length
    rw [h.count, hsplit, List.length_append, List.length_append, List.length_cons]
    omega
  · change s.ioCount - 1 ≤ 32
    have hbound := h.bound
    omega
  · intro j hj
    have hbusy : s.busy ≠ some id := h.not_busy (by rw [hpoint]; rfl)
    exact ⟨fun heq ↦ absurd (heq ▸ hj) hbusy, fun _ ↦ hj⟩

/-- The second critical section of a pass, from any place of its cursor. -/
theorem Sound.sweep (now : ℕ) (verdict : ℕ → Verdict) {kept todo : List ℕ} (h : s.Sound)
    (hsplit : s.ioRequests = kept ++ todo) : (sweep now verdict kept todo s).Sound := by
  induction todo generalizing s kept with
  | nil => exact h
  | cons id rest ih =>
      have hlisted : id ∈ s.ioRequests := by
        rw [hsplit]
        exact List.mem_append_right _ List.mem_cons_self
      have hr := TcIoRequest.poll_polled (s.slots id).request now (verdict id)
      rw [Reactor.sweep]
      split
      · rename_i hdone
        exact ih (h.unlink hsplit hr hdone) rfl
      · rename_i hdone
        apply ih (h.keep hlisted hr (by simpa using hdone))
        change s.ioRequests = _
        rw [hsplit, List.append_assoc]
        rfl

theorem Sound.take (h : s.Sound) {id : ℕ} {rest : List ℕ} (hcomplete : s.complete = id :: rest) :
    (s.take id rest).Sound := by
  have hmem : id ∈ s.complete := by
    rw [hcomplete]
    exact List.mem_cons_self
  have hpoint := (h.unlinked id).1 hmem
  have hrequests : id ∉ s.ioRequests := by
    rw [h.listed, hpoint]
    decide
  have hnodup := h.completeNodup
  rw [hcomplete, List.nodup_cons] at hnodup
  have hs' : ∃ closed, s.take id rest =
      { s with
        slots := Function.update s.slots id { s.slots id with point := .completing }
        complete := rest
        busy := some id
        fault := s.fault || !(s.slots id).allocated
        closed := closed } := by
    rw [Reactor.take]
    split
    · rcases closeSocket_eq s (s.slots id) with hclose | hclose <;> rw [hclose] <;>
        exact ⟨_, rfl⟩
    · exact ⟨_, rfl⟩
  obtain ⟨closed, hs'⟩ := hs'
  rw [hs']
  refine h.move ((h.slots id).completing hpoint) rfl le_rfl
    (h.lt_next (by rw [hpoint]; decide)) ?_ ?_ ⟨h.requestsNodup, hnodup.2⟩ ⟨h.count, h.bound⟩ ?_
    (h.allocated hpoint ⟨by decide, by decide⟩)
  · intro j
    change j ∈ s.ioRequests ↔ _
    by_cases hj : j = id
    · simp [hj, hrequests]
    · simp [hj]
  · intro j
    change j ∈ rest ↔ _
    rw [hcomplete]
    by_cases hj : j = id
    · simp [hj, hnodup.1]
    · simp [hj]
  · intro j hj
    have heq : id = j := Option.some.inj hj
    exact ⟨fun _ ↦ ⟨rfl, fun hfreed ↦ nomatch hfreed⟩, fun hne ↦ absurd heq.symm hne⟩

theorem Sound.advance (h : s.Sound) {id : ℕ} {slot : RequestSlot}
    (hslot : (s.slots id).advance = some slot) :
    ({ s.set id slot with
      busy := if slot.point = .freed ∧ s.busy = some id then none else s.busy } : Reactor).Sound := by
  obtain ⟨-, hsettled, hsettled', -, -⟩ := RequestSlot.advance_cases hslot
  have houtside (p : RequestPoint) (hp : p.settled = true) : p.outside = true := by
    cases p <;> first | rfl | cases hp
  refine h.set ((h.slots id).advance hslot) rfl le_rfl (h.lt_next ?_) ⟨rfl, rfl, rfl, rfl⟩
    (houtside _ hsettled) (houtside _ hsettled') ?_
  · intro habsent
    rw [habsent] at hsettled
    cases hsettled
  · intro j hj
    change (if slot.point = .freed ∧ s.busy = some id then none else s.busy) = some j at hj
    split at hj
    · cases hj
    · rename_i hnot
      refine ⟨hj, fun heq ↦ ⟨hsettled', fun hfreed ↦ hnot ⟨hfreed, ?_⟩⟩⟩
      rw [← heq]
      exact hj

end Reactor

end TinyCPlus.Runtime
