import TinyCPlus.Runtime.ReactorSockets

/-!
# Every run of the reactor

The invariants hold behind every step, and from every state that a run reaches each request can
still be answered.
-/

namespace TinyCPlus.Runtime

open TinyCPlus.Library

namespace Reactor

/-! ## Steps -/

/-- Every step keeps the invariants. -/
theorem sound_step {s t : Reactor} {e : ReactorEvent} (h : s.Sound ∧ s.Sockets)
    (hstep : transitions.step s e = some t) : t.Sound ∧ t.Sockets := by
  obtain ⟨hs, hc⟩ := h
  cases e with
  | read handle capacity timeout now token =>
      cases hstep
      exact ⟨hs.create (RequestSlot.new_sound (.inl ⟨rfl, by decide⟩) (by rintro ⟨⟩)
        (by rintro ⟨⟩)) (.inl rfl), hc.create hs (.inl (by rintro ⟨⟩))⟩
  | write handle data timeout now token =>
      cases hstep
      exact ⟨hs.create (RequestSlot.new_sound (.inl ⟨rfl, by decide⟩) (fun _ ↦ rfl)
        (by rintro ⟨⟩)) (.inl rfl), hc.create hs (.inl (by rintro ⟨⟩))⟩
  | accept handle timeout now token =>
      cases hstep
      exact ⟨hs.create (RequestSlot.new_sound (.inl ⟨rfl, by decide⟩) (by rintro ⟨⟩)
        (by rintro ⟨⟩)) (.inl rfl), hc.create hs (.inl (by rintro ⟨⟩))⟩
  | timer milliseconds now =>
      cases hstep
      have htimeout : (if milliseconds = 0 then 1 else milliseconds) ≠ 0 := by
        split <;> omega
      exact ⟨hs.create (RequestSlot.new_sound (.inr (.inr rfl)) (by rintro ⟨⟩)
        fun _ ↦ htimeout) (.inr (.inr rfl)), hc.create hs (.inl (by rintro ⟨⟩))⟩
  | connect timeout now token =>
      cases hstep
      exact ⟨hs.create (RequestSlot.new_sound (.inr (.inl ⟨rfl, rfl⟩)) (by rintro ⟨⟩)
        (by rintro ⟨⟩)) (.inr (.inl rfl)), hc.create hs (.inr rfl)⟩
  | check id nonblock =>
      obtain ⟨hpoint, heq⟩ := Option.ite_none_right_eq_some.1 hstep
      cases heq
      exact ⟨hs.check hpoint nonblock, hc.check hs hpoint nonblock⟩
  | resolve id resolution =>
      cases resolution with
      | failed error =>
          obtain ⟨⟨hpoint, herror⟩, heq⟩ := Option.ite_none_right_eq_some.1 hstep
          cases heq
          have hfailed : ∀ e, Resolution.failed error = .failed e → e ≠ 0 := by
            rintro e ⟨⟩
            exact herror
          exact ⟨hs.resolve hpoint hfailed, hc.resolve hs hpoint hfailed⟩
      | addresses outcomes =>
          obtain ⟨hpoint, heq⟩ := Option.ite_none_right_eq_some.1 hstep
          cases heq
          have hfailed : ∀ e, Resolution.addresses outcomes = .failed e → e ≠ 0 := by
            rintro e ⟨⟩
          exact ⟨hs.resolve hpoint hfailed, hc.resolve hs hpoint hfailed⟩
  | enqueue id =>
      obtain ⟨hpoint, heq⟩ := Option.ite_none_right_eq_some.1 hstep
      cases heq
      exact ⟨hs.enqueue hpoint, hc.enqueue hpoint⟩
  | pass now verdict =>
      obtain ⟨-, heq⟩ := Option.ite_none_right_eq_some.1 hstep
      cases heq
      exact ⟨hs.sweep now verdict rfl, hc.sweep now verdict hs rfl⟩
  | take =>
      simp only [transitions] at hstep
      split at hstep
      · rename_i id rest hcomplete hbusy
        cases hstep
        have hpoint : (s.slots id).point = .unlinked := by
          rw [← hs.unlinked, hcomplete]
          exact List.mem_cons_self
        exact ⟨hs.take hcomplete, hc.take rest hpoint⟩
      · cases hstep
  | advance id =>
      obtain ⟨slot, hslot, heq⟩ := Option.map_eq_some_iff.1 hstep
      cases heq
      exact ⟨hs.advance hslot, hc.advance hslot⟩

/-! ## What is left to do for a request -/

/-- How many of the calls of `tc_io_complete` are left. -/
def callsLeft : RequestPoint → ℕ
  | .completing => 4
  | .releasing => 3
  | .ending => 2
  | .freeing => 1
  | _ => 0

theorem advance_some {slot : RequestSlot} (hsettled : slot.point.settled = true)
    (hfreed : slot.point ≠ .freed) :
    ∃ slot', slot.advance = some slot' ∧ callsLeft slot'.point + 1 = callsLeft slot.point := by
  rw [RequestSlot.advance]
  split
  · rename_i hpoint
    exact ⟨_, rfl, by rw [hpoint]; rfl⟩
  · rename_i hpoint
    exact ⟨_, rfl, by rw [hpoint]; rfl⟩
  · rename_i hpoint
    exact ⟨_, rfl, by rw [hpoint]; rfl⟩
  · rename_i hpoint
    exact ⟨_, rfl, by rw [hpoint]; rfl⟩
  · rename_i hcompleting hreleasing hending hfreeing
    cases hpoint : slot.point with
    | completing => exact absurd hpoint hcompleting
    | releasing => exact absurd hpoint hreleasing
    | ending => exact absurd hpoint hending
    | freeing => exact absurd hpoint hfreeing
    | freed => exact absurd hpoint hfreed
    | absent | created | resolving | enqueuing | listed | unlinked =>
        rw [hpoint] at hsettled
        cases hsettled

/-- A request in `tc_io_complete` comes to its end, and nothing else changes. -/
theorem exists_settled {s : Reactor} (h : s.Sound) {id : ℕ}
    (hsettled : (s.slots id).point.settled = true) :
    ∃ events t, transitions.run s events = some t ∧ t.Sound ∧ (t.slots id).point = .freed ∧
      (∀ j, j ≠ id → t.slots j = s.slots j) ∧ t.complete = s.complete ∧
        t.busy = if s.busy = some id then none else s.busy := by
  induction hleft : callsLeft (s.slots id).point generalizing s with
  | zero =>
      have hfreed : (s.slots id).point = .freed := by
        cases hpoint : (s.slots id).point with
        | freed => rfl
        | completing | releasing | ending | freeing =>
            rw [hpoint] at hleft
            cases hleft
        | absent | created | resolving | enqueuing | listed | unlinked =>
            rw [hpoint] at hsettled
            cases hsettled
      refine ⟨[], s, rfl, h, hfreed, fun _ _ ↦ rfl, rfl, ?_⟩
      rw [if_neg fun hbusy ↦ (h.busy id hbusy).2 hfreed]
  | succ n ih =>
      have hfreed : (s.slots id).point ≠ .freed := by
        intro hfreed
        rw [hfreed] at hleft
        cases hleft
      obtain ⟨slot, hslot, hcalls⟩ := advance_some hsettled hfreed
      have hsound := h.advance hslot
      have hsettled' := (RequestSlot.advance_cases hslot).2.2.1
      obtain ⟨events, t, hrun, ht, hdone, hothers, hcomplete, hbusy⟩ :=
        ih hsound (by rw [set_slots, Function.update_self]; exact hsettled')
          (by rw [set_slots, Function.update_self]; omega)
      refine ⟨.advance id :: events, t, ?_, ht, hdone, ?_, hcomplete, ?_⟩
      · rw [Transitions.run_cons_eq_some]
        refine ⟨_, ?_, hrun⟩
        change ((s.slots id).advance.map _) = _
        rw [hslot]
        rfl
      · intro j hj
        rw [hothers j hj]
        exact Function.update_of_ne hj _ _
      · rw [hbusy]
        change (if (if slot.point = .freed ∧ s.busy = some id then none else s.busy) = some id
          then none else (if slot.point = .freed ∧ s.busy = some id then none else s.busy)) = _
        split_ifs <;> simp_all

/-- The call of `tc_io_complete` that the reactor is in comes to its end. -/
theorem exists_idle {s : Reactor} (h : s.Sound) :
    ∃ events t, transitions.run s events = some t ∧ t.Sound ∧ t.busy = none ∧
      t.complete = s.complete ∧ ∀ j, (s.slots j).point.settled = false ∨
        (s.slots j).point = .freed → t.slots j = s.slots j := by
  cases hbusy : s.busy with
  | none => exact ⟨[], s, rfl, h, hbusy, rfl, fun _ _ ↦ rfl⟩
  | some id =>
      obtain ⟨hsettled, hnot⟩ := h.busy id hbusy
      obtain ⟨events, t, hrun, ht, -, hothers, hcomplete, hbusy'⟩ := exists_settled h hsettled
      refine ⟨events, t, hrun, ht, by rw [hbusy', if_pos hbusy], hcomplete, fun j hj ↦ ?_⟩
      apply hothers
      rintro rfl
      rcases hj with hj | hj
      · rw [hsettled] at hj
        cases hj
      · exact hnot hj

/-- The reactor completes the next request that it has taken out of the queue. -/
theorem exists_taken {s : Reactor} (h : s.Sound) (hidle : s.busy = none) {id : ℕ} {rest : List ℕ}
    (hsplit : s.complete = id :: rest) :
    ∃ events t, transitions.run s events = some t ∧ t.Sound ∧ t.complete = rest ∧
      (t.slots id).point = .freed ∧ ∀ j, j ≠ id → t.slots j = s.slots j := by
  have hstep : transitions.step s .take = some (s.take id rest) := by
    simp only [transitions, hsplit, hidle]
  have hslots : (s.take id rest).slots =
      Function.update s.slots id { s.slots id with point := .completing } := by
    rw [Reactor.take]
    split
    · rcases closeSocket_eq s (s.slots id) with hclose | hclose <;> rw [hclose] <;> rfl
    · rfl
  have hsettled : ((s.take id rest).slots id).point.settled = true := by
    rw [hslots, Function.update_self]
    rfl
  obtain ⟨events, t, hrun, ht, hfreed, hothers, hcomplete, -⟩ :=
    exists_settled (h.take hsplit) hsettled
  refine ⟨.take :: events, t, transitions.run_cons_eq_some.2 ⟨_, hstep, hrun⟩, ht, hcomplete,
    hfreed, fun j hj ↦ ?_⟩
  rw [hothers j hj, hslots, Function.update_of_ne hj]

/-- The reactor completes all that it has taken out of the queue. -/
theorem exists_drained {s : Reactor} (h : s.Sound) :
    ∃ events t, transitions.run s events = some t ∧ t.Sound ∧ t.complete = [] ∧ t.busy = none ∧
      (∀ id, (s.slots id).point = .unlinked ∨ (s.slots id).point = .freed →
        (t.slots id).point = .freed) ∧
        ∀ id, (s.slots id).point = .listed → t.slots id = s.slots id := by
  induction hlength : s.complete.length generalizing s with
  | zero =>
      obtain ⟨events, t, hrun, ht, hidle, hcomplete, hsame⟩ := exists_idle h
      refine ⟨events, t, hrun, ht, hcomplete.trans (List.length_eq_zero_iff.1 hlength), hidle,
        fun id hid ↦ ?_, fun id hid ↦ hsame id (.inl (by rw [hid]; rfl))⟩
      rcases hid with hid | hid
      · rw [← h.unlinked, List.length_eq_zero_iff.1 hlength] at hid
        cases hid
      · rw [hsame id (.inr hid)]
        exact hid
  | succ n ih =>
      obtain ⟨first, s₁, hfirst, hs₁, hidle₁, hcomplete₁, hsame₁⟩ := exists_idle h
      obtain ⟨head, rest, hsplit⟩ := List.exists_cons_of_length_eq_add_one hlength
      rw [← hcomplete₁] at hsplit
      obtain ⟨second, s₂, hsecond, hs₂, hcomplete₂, hfreed₂, hsame₂⟩ :=
        exists_taken hs₁ hidle₁ hsplit
      have hlength₂ : s₂.complete.length = n := by
        rw [hcomplete₂]
        rw [← hcomplete₁, hsplit] at hlength
        exact Nat.succ.inj hlength
      obtain ⟨third, t, hthird, ht, hcomplete, hidle, hfreed, hlisted⟩ := ih hs₂ hlength₂
      have hhead : (s.slots head).point = .unlinked := by
        rw [← h.unlinked, ← hcomplete₁, hsplit]
        exact List.mem_cons_self
      refine ⟨first ++ second ++ third, t, transitions.run_append
        (transitions.run_append hfirst hsecond) hthird, ht, hcomplete, hidle, fun id hid ↦ ?_,
        fun id hid ↦ ?_⟩
      · apply hfreed
        by_cases heq : id = head
        · rw [heq]
          exact .inr hfreed₂
        · rw [hsame₂ id heq, hsame₁ id (hid.imp_left fun hid ↦ by rw [hid]; rfl)]
          exact hid
      · have heq : id ≠ head := by
          rintro rfl
          rw [hhead] at hid
          cases hid
        have hsame : s₂.slots id = s.slots id := by
          rw [hsame₂ id heq, hsame₁ id (.inl (by rw [hid]; rfl))]
        rw [hlisted id (by rw [hsame]; exact hid), hsame]

/-! ## A pass that answers a request -/

theorem sweep_other (now : ℕ) (verdict : ℕ → Verdict) {kept todo : List ℕ} {s : Reactor} {id : ℕ}
    (hid : id ∉ todo) : (sweep now verdict kept todo s).slots id = s.slots id := by
  induction todo generalizing s kept with
  | nil => rfl
  | cons j rest ih =>
      rw [List.mem_cons, not_or] at hid
      rw [Reactor.sweep]
      split
      · rw [ih hid.2]
        exact Function.update_of_ne hid.1 _ _
      · rw [ih hid.2]
        exact Function.update_of_ne hid.1 _ _

/-- A pass takes a request out of the queue that is over by its verdict. -/
theorem sweep_done (now : ℕ) (verdict : ℕ → Verdict) {kept todo : List ℕ} {s : Reactor} {id : ℕ}
    (hid : id ∈ todo) (hnodup : todo.Nodup)
    (hdone : ((s.slots id).request.poll now (verdict id)).done = true) :
    ((sweep now verdict kept todo s).slots id).point = .unlinked := by
  induction todo generalizing s kept with
  | nil => cases hid
  | cons j rest ih =>
      rw [List.nodup_cons] at hnodup
      rw [Reactor.sweep]
      by_cases heq : id = j
      · subst heq
        rw [if_pos hdone, sweep_other now verdict hnodup.1]
        change (Function.update s.slots id _ id).point = _
        rw [Function.update_self]
      · have hrest : id ∈ rest := (List.mem_cons.1 hid).resolve_left heq
        split
        · apply ih hrest hnodup.2
          change ((Function.update s.slots j _ id).request.poll now (verdict id)).done = true
          rw [Function.update_of_ne heq]
          exact hdone
        · apply ih hrest hnodup.2
          change ((Function.update s.slots j _ id).request.poll now (verdict id)).done = true
          rw [Function.update_of_ne heq]
          exact hdone

/-- A ready socket, a connection and an empty transfer. -/
def readyVerdict : Verdict := ⟨false, true, 0, some 0, some 0, false⟩

theorem poll_ready {r : TcIoRequest} (htimer : r.kind = .timer → r.deadline ≠ 0) :
    (r.poll r.deadline readyVerdict).done = true := by
  rw [TcIoRequest.poll, if_neg fun h ↦ absurd h.2 (by decide)]
  by_cases hdeadline : r.deadline = 0
  · have hkind : r.kind ≠ .timer := fun hkind ↦ htimer hkind hdeadline
    rw [if_neg fun h ↦ h.1 hdeadline, if_pos ⟨hkind, rfl⟩, TcIoRequest.serve]
    cases hkind' : r.kind with
    | read | write =>
        change (r.transfer (min 0 r.chunk)).done = true
        rw [Nat.zero_min, TcIoRequest.transfer, if_pos (.inr (.inr rfl))]
    | accept | connect => rfl
    | timer => exact absurd hkind' hkind
  · rw [if_pos ⟨hdeadline, le_rfl⟩]
    rfl

/-! ## Every request can be answered -/

/-- A request can come to its end. -/
def Finishes (s : Reactor) (id : ℕ) : Prop :=
  ∃ events t, transitions.run s events = some t ∧ (t.slots id).point = .freed

theorem Finishes.of_step {s t : Reactor} {id : ℕ} {e : ReactorEvent}
    (hstep : transitions.step s e = some t) (h : t.Finishes id) : s.Finishes id := by
  obtain ⟨events, u, hrun, hfreed⟩ := h
  exact ⟨e :: events, u, transitions.run_cons_eq_some.2 ⟨t, hstep, hrun⟩, hfreed⟩

theorem finishes_of_settled {s : Reactor} (h : s.Sound) {id : ℕ}
    (hsettled : (s.slots id).point.settled = true) : s.Finishes id := by
  obtain ⟨events, t, hrun, -, hfreed, -⟩ := exists_settled h hsettled
  exact ⟨events, t, hrun, hfreed⟩

theorem finishes_of_listed {s : Reactor} (h : s.Sound) {id : ℕ}
    (hpoint : (s.slots id).point = .listed) : s.Finishes id := by
  obtain ⟨first, s₁, hfirst, hs₁, hcomplete, hidle, -, hlisted⟩ := exists_drained h
  have hpoint₁ : (s₁.slots id).point = .listed := by
    rw [hlisted id hpoint, hpoint]
  have hmem : id ∈ s₁.ioRequests := (hs₁.listed id).2 hpoint₁
  have htimer := (hs₁.slots id).timer (by rw [hpoint₁]; decide)
  have hstep : transitions.step s₁ (.pass (s₁.slots id).request.deadline fun _ ↦ readyVerdict) =
      some (sweep (s₁.slots id).request.deadline (fun _ ↦ readyVerdict) [] s₁.ioRequests s₁) :=
    if_pos ⟨hcomplete, hidle⟩
  have hsplit : s₁.ioRequests = [] ++ s₁.ioRequests := rfl
  have hunlinked : ((sweep (s₁.slots id).request.deadline (fun _ ↦ readyVerdict) []
      s₁.ioRequests s₁).slots id).point = .unlinked :=
    sweep_done _ _ hmem hs₁.requestsNodup (poll_ready htimer)
  obtain ⟨last, t, hlast, -, -, -, hfreed, -⟩ :=
    exists_drained (hs₁.sweep (s₁.slots id).request.deadline (fun _ ↦ readyVerdict) hsplit)
  exact ⟨first ++ (_ :: last), t, transitions.run_append hfirst
    (transitions.run_cons_eq_some.2 ⟨_, hstep, hlast⟩), hfreed id (.inl hunlinked)⟩

theorem finishes_of_enqueuing {s : Reactor} (h : s.Sound) {id : ℕ}
    (hpoint : (s.slots id).point = .enqueuing) : s.Finishes id := by
  have hsound := h.enqueue hpoint
  apply Finishes.of_step (e := .enqueue id) (if_pos hpoint)
  by_cases hfull : 32 ≤ s.ioCount
  · apply finishes_of_settled hsound
    rw [Reactor.enqueue, if_pos hfull, set_slots, Function.update_self]
    rfl
  · apply finishes_of_listed hsound
    rw [Reactor.enqueue, if_neg hfull]
    change (Function.update s.slots id _ id).point = _
    rw [Function.update_self]

/-- Every request that has begun can come to its end. -/
theorem finishes {s : Reactor} (h : s.Sound) {id : ℕ} (hbegun : (s.slots id).point ≠ .absent) :
    s.Finishes id := by
  cases hpoint : (s.slots id).point with
  | absent => exact absurd hpoint hbegun
  | created =>
      have hsound := h.check hpoint true
      apply Finishes.of_step (e := .check id true) (if_pos hpoint)
      rcases check_point (s.slots id) true with hnew | hnew
      · apply finishes_of_settled hsound
        rw [set_slots, Function.update_self, hnew]
        rfl
      · apply finishes_of_enqueuing hsound
        rw [set_slots, Function.update_self, hnew]
  | resolving =>
      have hne : (13 : ℤ) ≠ 0 := by decide
      have hsound : (s.resolve id (.failed 13)).Sound := by
        apply h.resolve hpoint
        rintro e ⟨⟩
        exact hne
      apply Finishes.of_step (e := .resolve id (.failed 13)) (if_pos ⟨hpoint, hne⟩)
      apply finishes_of_settled hsound
      change (Function.update s.slots id _ id).point.settled = true
      rw [Function.update_self]
      rfl
  | enqueuing => exact finishes_of_enqueuing h hpoint
  | listed => exact finishes_of_listed h hpoint
  | unlinked =>
      obtain ⟨events, t, hrun, -, -, -, hfreed, -⟩ := exists_drained h
      exact ⟨events, t, hrun, hfreed id (.inl hpoint)⟩
  | completing | releasing | ending | freeing | freed =>
      exact finishes_of_settled h (by rw [hpoint]; rfl)

/-! ## The law -/

/-- What the requests, the queue and the sockets come to in any state of a run. -/
structure Accounted (s : Reactor) : Prop where
  /-- At most once each: the completion with the recorded result and error, the end of the task
  and the release of the memory, in this order. -/
  log : ∀ id, (s.slots id).log <+: [.begun,
    .completed (s.slots id).request.result (s.slots id).request.error, .ended, .freed]
  freed : ∀ id, (s.slots id).point = .freed → (s.slots id).log = [.begun,
    .completed (s.slots id).request.result (s.slots id).request.error, .ended, .freed]
  /-- No access to a request that is not allocated. -/
  untouched : s.fault = false
  queue : s.ioCount = s.ioRequests.length ∧ s.ioCount ≤ 32 ∧ s.ioRequests.Nodup
  failed : ∀ id, (s.slots id).request.kind = .connect → (s.slots id).point.settled = true →
    (s.slots id).request.error ≠ 0 →
      ∀ k : ℕ, s.opened[k]? = some id → s.closed.count (k : ℤ) = 1
  connected : ∀ id, (s.slots id).request.kind = .connect → (s.slots id).point.settled = true →
    (s.slots id).request.error = 0 → ∃ k : ℕ, (s.slots id).request.result = k ∧
      s.opened[k]? = some id ∧ s.closed.count (k : ℤ) = 0 ∧
        ∀ j : ℕ, j ≠ k → s.opened[j]? = some id → s.closed.count (j : ℤ) = 1
  written : ∀ id, (s.slots id).request.kind = .write → (s.slots id).point.settled = true →
    (s.slots id).request.error = 0 →
      (s.slots id).request.handed = (s.slots id).request.data ∨
        (s.slots id).request.stopped = true ∧
          (s.slots id).request.handed <+: (s.slots id).request.data

theorem log_prefix (result error : ℤ) (point : RequestPoint) :
    point.log result error <+: [.begun, .completed result error, .ended, .freed] := by
  cases point with
  | absent => exact ⟨_, rfl⟩
  | created | resolving | enqueuing | listed | unlinked | completing => exact ⟨_, rfl⟩
  | releasing | ending => exact ⟨_, rfl⟩
  | freeing => exact ⟨_, rfl⟩
  | freed => exact ⟨[], rfl⟩

theorem Sound.accounted {s : Reactor} (h : s.Sound) (hc : s.Sockets) : s.Accounted where
  log id := by
    rw [(h.slots id).log]
    exact log_prefix _ _ _
  freed id hfreed := by
    rw [(h.slots id).log, hfreed]
    rfl
  untouched := h.fault
  queue := ⟨h.count, h.bound, h.requestsNodup⟩
  failed id hkind hsettled herror k hk := by
    rw [hc.closed k id hk, if_neg]
    rintro ⟨hopen, -⟩
    exact herror ((RequestSlot.socketOpen_iff.1 hopen).2.2 hsettled)
  connected id hkind hsettled herror := by
    have hlate : (s.slots id).point.early = false := by
      cases hpoint : (s.slots id).point <;> first | rfl | (rw [hpoint] at hsettled; cases hsettled)
    have hopen : (s.slots id).socketOpen = true :=
      RequestSlot.socketOpen_iff.2 ⟨hkind, hlate, fun _ ↦ herror⟩
    obtain ⟨k, hk, hopened⟩ := hc.owner id hopen
    have hresult := (h.slots id).connected hkind (.inr hsettled) herror
    refine ⟨k, hresult.trans hk, hopened, ?_, fun j hj hjopened ↦ ?_⟩
    · rw [hc.closed k id hopened, if_pos ⟨hopen, hk⟩]
    · rw [hc.closed j id hjopened, if_neg]
      rintro ⟨-, hsocket⟩
      exact hj (Int.ofNat.inj (hsocket.symm.trans hk))
  written id hkind hsettled herror := by
    have hwrite := (h.slots id).write hkind
    rcases (h.slots id).finished hkind (.inr hsettled) herror with hall | hstopped
    · left
      rw [hwrite.handed, hall, hwrite.length, List.take_length]
    · right
      rw [hwrite.handed]
      exact ⟨hstopped, List.take_prefix _ _⟩

/-- In every run each request is completed at most once, and it can always be completed: its
future, its task and its memory are settled once, the queue holds at most 32 requests, each
socket of a connect is closed once or handed over, and a write hands over its bytes in order. -/
theorem reactor_accounted {events : List ReactorEvent} {s : Reactor}
    (hrun : transitions.run start events = some s) :
    s.Accounted ∧ ∀ id, (s.slots id).point ≠ .absent → s.Finishes id := by
  obtain ⟨hsound, hsockets⟩ := Transitions.run_invariant (P := fun s ↦ s.Sound ∧ s.Sockets)
    (fun h hstep ↦ sound_step h hstep) ⟨start_sound, start_sockets⟩ hrun
  exact ⟨hsound.accounted hsockets, fun id hbegun ↦ finishes hsound hbegun⟩

/-- A connect whose second address answers, beside a timer. -/
def connectRun : List ReactorEvent :=
  [.connect 0 5 false, .timer 0 5, .resolve 0 (.addresses [.refused, .pending]), .enqueue 0,
    .enqueue 1, .pass 5 (fun _ ↦ readyVerdict), .take, .advance 0, .advance 0, .advance 0,
    .advance 0]

theorem reactor_accounted_connect : ∃ s, transitions.run start connectRun = some s ∧
    (s.slots 0).point = .freed ∧ s.closed = [0] ∧ s.Accounted := by
  have hfreed : (transitions.run start connectRun).map
      (fun s ↦ ((s.slots 0).point, s.closed)) = some (.freed, [0]) := rfl
  obtain ⟨s, hrun, hpoint⟩ := Option.map_eq_some_iff.1 hfreed
  exact ⟨s, hrun, (Prod.mk.inj hpoint).1, (Prod.mk.inj hpoint).2, (reactor_accounted hrun).1⟩

end Reactor

end TinyCPlus.Runtime
