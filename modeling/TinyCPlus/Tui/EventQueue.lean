import TinyCPlus.Library.Machine
import TinyCPlus.Library.RingBuffer
import TinyCPlus.Tui.Dispatch

/-!
# The event queue of a window

Posted events wait in 64 slots.  The two counters are unsigned and never set back, so they start
again at zero after `2 ^ 32` events.
-/

namespace TinyCPlus.Tui

open TinyCPlus.Library

/-- The fields `events`, `event_read` and `event_write` of a window. -/
structure EventRing where
  events : List UiEvent
  eventRead : UInt32
  eventWrite : UInt32

def UiEvent.zero : UiEvent := ⟨0, 0, 0, 0, 0, 0, 0⟩

/-- The event of kind `TC_UI_TIMER` that `tc_ui_event` makes itself. -/
def UiEvent.timer : UiEvent := { UiEvent.zero with kind := 3 }

namespace EventRing

/-- The queue of a window that is new. -/
def new : EventRing := ⟨List.replicate 64 .zero, 0, 0⟩

/-- `tc_ui_post` -/
def post (u : EventRing) (kind key x y : ℤ) (codepoint : ℕ) : ℤ × EventRing :=
  if 64 ≤ u.eventWrite - u.eventRead then (8, u)
  else
    let event := { UiEvent.zero with kind, key, x, y, codepoint }
    (0, { u with
      events := u.events.set (u.eventWrite % 64).toNat event
      eventWrite := u.eventWrite + 1 })

/-- `tc_ui_next` on a headless window, where the timeout is not used. -/
def next (u : EventRing) : UiEvent × EventRing :=
  if u.eventRead ≠ u.eventWrite then
    (u.events.getD (u.eventRead % 64).toNat .zero, { u with eventRead := u.eventRead + 1 })
  else (.timer, u)

end EventRing

/-! ## Calls -/

inductive QueueCall where
  | post (kind key x y : ℤ) (codepoint : ℕ)
  | next (timeout : ℤ)

inductive QueueReply where
  | code (c : ℤ)
  | event (e : UiEvent)

def QueueCall.event (kind key x y : ℤ) (codepoint : ℕ) : UiEvent :=
  { UiEvent.zero with kind, key, x, y, codepoint }

def ringMachine : Machine EventRing QueueCall QueueReply where
  step u
    | .post kind key x y codepoint =>
        ((u.post kind key x y codepoint).2, .code (u.post kind key x y codepoint).1)
    | .next _ => (u.next.2, .event u.next.1)

/-- What the queue is for: at most 64 events, first in, first out. -/
def plainMachine : Machine (List UiEvent) QueueCall QueueReply where
  step q
    | .post kind key x y codepoint =>
        if q.length < 64 then (q ++ [QueueCall.event kind key x y codepoint], .code 0) else (q, .code 8)
    | .next _ =>
        match q with
        | [] => ([], .event .timer)
        | e :: q => (q, .event e)

/-- The slots between the counters hold the queue. -/
def EventRing.Holds (u : EventRing) (q : List UiEvent) : Prop :=
  RingHolds 64 (2 ^ 32) u.events u.eventRead.toNat u.eventWrite.toNat q

namespace EventRing

variable {u : EventRing} {q : List UiEvent}

theorem holds_new : new.Holds [] := .nil (List.length_replicate ..) (by decide)

section

variable (h : u.Holds q)
include h

theorem Holds.pending : (u.eventWrite - u.eventRead).toNat = q.length := by
  rw [UInt32.toNat_sub, Nat.add_comm]
  exact RingHolds.pending h (by decide)

theorem Holds.full_iff : 64 ≤ u.eventWrite - u.eventRead ↔ q.length = 64 := by
  have hlength := h.length_le
  have h64 : (64 : UInt32).toNat = 64 := rfl
  rw [UInt32.le_iff_toNat_le, h.pending, h64]
  omega

theorem Holds.empty_iff : u.eventRead = u.eventWrite ↔ q = [] := by
  rw [← UInt32.toNat_inj]
  exact RingHolds.write_eq_read_iff h (by decide)

/-- A post is refused exactly when 64 events are pending. -/
theorem Holds.post (kind key x y : ℤ) (codepoint : ℕ) :
    (q.length = 64 ∧ u.post kind key x y codepoint = (8, u)) ∨
      (q.length < 64 ∧ (u.post kind key x y codepoint).1 = 0 ∧
        (u.post kind key x y codepoint).2.Holds (q ++ [QueueCall.event kind key x y codepoint])) := by
  unfold EventRing.post
  split
  · exact .inl ⟨h.full_iff.mp ‹_›, rfl⟩
  · rename_i hfree
    have hlt : q.length < 64 := lt_of_le_of_ne h.length_le (mt h.full_iff.mpr hfree)
    refine .inr ⟨hlt, rfl, ?_⟩
    have hpush := RingHolds.push (x := QueueCall.event kind key x y codepoint) h (by decide) hlt
    rw [Holds, UInt32.toNat_add, UInt32.toNat_mod]
    exact hpush

theorem Holds.next : (q = [] ∧ u.next = (.timer, u)) ∨
    ∃ e rest, q = e :: rest ∧ u.next.1 = e ∧ u.next.2.Holds rest := by
  unfold EventRing.next
  split
  · rename_i hpending
    cases q with
    | nil => exact absurd (h.empty_iff.mpr rfl) hpending
    | cons e rest =>
        refine .inr ⟨e, rest, rfl, ?_, ?_⟩
        · have hfront := RingHolds.front h
          rw [UInt32.toNat_mod, List.getD_eq_getElem?_getD]
          exact congrArg (Option.getD · UiEvent.zero) hfront
        · have hpop := RingHolds.pop (by decide) h
          rw [Holds, UInt32.toNat_add]
          exact hpop
  · exact .inl ⟨h.empty_iff.mp (not_not.mp ‹_›), rfl⟩

end

/-- The ring answers like the queue. -/
theorem simulates : ringMachine.Simulates plainMachine Holds := by
  rintro u q (⟨kind, key, x, y, codepoint⟩ | timeout) h
  · rcases h.post kind key x y codepoint with ⟨hfull, hpost⟩ | ⟨hfree, hcode, hholds⟩
    · simp only [ringMachine, plainMachine, hpost, hfull, lt_irrefl, if_false]
      exact ⟨h, trivial⟩
    · simp only [ringMachine, plainMachine, hfree, if_true, hcode]
      exact ⟨hholds, trivial⟩
  · rcases h.next with ⟨rfl, hnext⟩ | ⟨e, rest, rfl, hfront, hrest⟩
    · simp only [ringMachine, plainMachine, hnext]
      exact ⟨h, trivial⟩
    · simp only [ringMachine, plainMachine, hfront]
      exact ⟨hrest, trivial⟩

/-- The events of the posts that are not refused. -/
def accepted (u : EventRing) : List QueueCall → List UiEvent
  | [] => []
  | .post kind key x y codepoint :: rest =>
      let posted := u.post kind key x y codepoint
      if posted.1 = 0 then QueueCall.event kind key x y codepoint :: accepted posted.2 rest
      else accepted posted.2 rest
  | .next _ :: rest => accepted u.next.2 rest

/-- The events that `tc_ui_next` takes from the queue. -/
def delivered (u : EventRing) : List QueueCall → List UiEvent
  | [] => []
  | .post kind key x y codepoint :: rest => delivered (u.post kind key x y codepoint).2 rest
  | .next _ :: rest =>
      if u.eventRead ≠ u.eventWrite then u.next.1 :: delivered u.next.2 rest
      else delivered u.next.2 rest

theorem Holds.accepted_eq (h : u.Holds q) (calls : List QueueCall) :
    q ++ u.accepted calls = u.delivered calls ++ plainMachine.run q calls := by
  induction calls generalizing u q with
  | nil => simp [accepted, delivered]
  | cons call rest ih =>
      rcases call with ⟨kind, key, x, y, codepoint⟩ | timeout
      · rcases h.post kind key x y codepoint with ⟨hfull, hpost⟩ | ⟨hfree, hcode, hholds⟩
        · simp only [accepted, delivered, hpost, Machine.run_cons, plainMachine, hfull, lt_irrefl,
            if_false]
          exact ih h
        · simp only [accepted, delivered, hcode, if_true, Machine.run_cons, plainMachine, hfree]
          rw [List.append_cons]
          exact ih hholds
      · rcases h.next with ⟨rfl, hnext⟩ | ⟨e, queue, rfl, hfront, hrest⟩
        · have hempty := h.empty_iff.mpr rfl
          simp only [accepted, delivered, hnext, hempty, ne_eq, not_true_eq_false, if_false,
            Machine.run_cons, plainMachine]
          exact ih h
        · have hpending : u.eventRead ≠ u.eventWrite := by
            intro heq
            cases h.empty_iff.mp heq
          simp only [accepted, delivered, hpending, ne_eq, not_false_eq_true, if_true, hfront,
            Machine.run_cons, plainMachine, List.cons_append]
          exact congrArg (e :: ·) (ih hrest)

/-- After any calls on a new window the answers are those of a queue of at most 64 events; the
events that were accepted are those that came out, in this order, and then those that are still
pending.  A post is refused, without a change, exactly when 64 are pending, and `tc_ui_next` gives
the timer event, without a change, when none is. -/
theorem events_in_order (calls : List QueueCall) :
    let u := ringMachine.run new calls
    let pending := plainMachine.run [] calls
    ringMachine.answers new calls = plainMachine.answers [] calls ∧
      new.accepted calls = new.delivered calls ++ pending ∧
      (∀ kind key x y codepoint,
        ((u.post kind key x y codepoint).1 ≠ 0 ↔ pending.length = 64) ∧
          ((u.post kind key x y codepoint).1 ≠ 0 → (u.post kind key x y codepoint).2 = u)) ∧
      (pending = [] → u.next = (.timer, u)) := by
  intro u pending
  have h : u.Holds pending := simulates.run holds_new calls
  refine ⟨simulates.answers holds_new calls, ?_, fun kind key x y codepoint ↦ ?_, fun hnone ↦ ?_⟩
  · exact holds_new.accepted_eq calls
  · rcases h.post kind key x y codepoint with ⟨hfull, hpost⟩ | ⟨hfree, hcode, -⟩
    · rw [hpost]
      exact ⟨iff_of_true (by simp) hfull, fun _ ↦ rfl⟩
    · rw [hcode]
      exact ⟨iff_of_false (by simp) hfree.ne, fun hrefused ↦ absurd rfl hrefused⟩
  · rcases h.next with ⟨-, hnext⟩ | ⟨e, rest, hcons, -⟩
    · exact hnext
    · rw [hnone] at hcons
      cases hcons

end EventRing

end TinyCPlus.Tui
