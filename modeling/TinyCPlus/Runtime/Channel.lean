import TinyCPlus.Library.CondVar
import TinyCPlus.Library.Transitions

/-!
# Channels (`tc_channel_*` of `concurrent.c`)

A channel with any number of threads that send, receive and close.  Every
section under the lock is one step; a thread that waits for a condition and
goes on later runs the section again from the loop condition.  Threads are
named by `τ`, and the elements of the channel are values of `α`.
-/

namespace TinyCPlus.Runtime

open TinyCPlus.Library

structure TcChannel (α : Type*) where
  capacity : ℕ
  head : ℕ
  count : ℕ
  closed : Bool
  data : ℕ → α

/-- What a call did when it took effect. -/
inductive Outcome (τ α : Type*) where
  | sent (t : τ) (v : α)
  | sendRefused (t : τ)
  | received (t : τ) (v : α)
  | receiveRefused (t : τ)
  | closed

/-- The channel, its conditions, and what has happened so far.  A thread that
waits to send keeps its value. -/
structure ChannelSystem (τ α : Type*) where
  channel : TcChannel α
  readable : CondVar τ
  writable : CondVar (τ × α)
  history : List (Outcome τ α)

inductive ChannelEvent (τ α : Type*) where
  | send (t : τ) (v : α) (chosen : Multiset τ)
  | sendAgain (t : τ) (v : α) (chosen : Multiset τ)
  | receive (t : τ) (chosen : Multiset (τ × α))
  | receiveAgain (t : τ) (chosen : Multiset (τ × α))
  | close
  | wakeReceiver (t : τ)
  | wakeSender (t : τ) (v : α)

namespace ChannelSystem

variable {τ α : Type*}

/-- `tc_channel_create` -/
def create (capacity : ℕ) (data : ℕ → α) : ChannelSystem τ α :=
  ⟨⟨capacity, 0, 0, false, data⟩, .empty, .empty, []⟩

def record (s : ChannelSystem τ α) (x : Outcome τ α) : ChannelSystem τ α :=
  { s with history := s.history ++ [x] }

/-- `tc_channel_close` -/
def close (s : ChannelSystem τ α) : ChannelSystem τ α :=
  { s with
    channel := { s.channel with closed := true }
    readable := s.readable.broadcast
    writable := s.writable.broadcast }.record .closed

variable [DecidableEq τ] [DecidableEq α]

/-- `tc_channel_send` from the loop condition on; `chosen` is whom the signal wakes. -/
def send (s : ChannelSystem τ α) (t : τ) (v : α) (chosen : Multiset τ) :
    Option (ChannelSystem τ α) :=
  let c := s.channel
  if c.count = c.capacity ∧ c.closed = false then
    some { s with writable := s.writable.wait (t, v) }
  else if c.closed = true then some (s.record (.sendRefused t))
  else
    let index := (c.head + c.count) % c.capacity
    (s.readable.signal chosen).map fun readable ↦
      { s with
        channel := { c with data := Function.update c.data index v, count := c.count + 1 }
        readable := readable }.record (.sent t v)

/-- `tc_channel_receive` from the loop condition on. -/
def receive (s : ChannelSystem τ α) (t : τ) (chosen : Multiset (τ × α)) :
    Option (ChannelSystem τ α) :=
  let c := s.channel
  if c.count = 0 ∧ c.closed = false then some { s with readable := s.readable.wait t }
  else if c.count = 0 then some (s.record (.receiveRefused t))
  else
    let destination := c.data c.head
    (s.writable.signal chosen).map fun writable ↦
      { s with
        channel := { c with head := (c.head + 1) % c.capacity, count := c.count - 1 }
        writable := writable }.record (.received t destination)

/-- A thread that waits for no condition. -/
def Idle (s : ChannelSystem τ α) (t : τ) : Prop :=
  t ∉ s.readable.waiting + s.readable.woken ∧
    ∀ p ∈ s.writable.waiting + s.writable.woken, p.1 ≠ t

instance (s : ChannelSystem τ α) (t : τ) : Decidable (s.Idle t) :=
  inferInstanceAs (Decidable (_ ∧ _))

/-- The steps of the system. -/
def transitions (τ α : Type*) [DecidableEq τ] [DecidableEq α] :
    Transitions (ChannelSystem τ α) (ChannelEvent τ α) where
  step s
    | .send t v chosen => if s.Idle t then s.send t v chosen else none
    | .sendAgain t v chosen =>
        (s.writable.resume (t, v)).bind fun writable ↦
          { s with writable := writable }.send t v chosen
    | .receive t chosen => if s.Idle t then s.receive t chosen else none
    | .receiveAgain t chosen =>
        (s.readable.resume t).bind fun readable ↦
          { s with readable := readable }.receive t chosen
    | .close => some s.close
    | .wakeReceiver t =>
        (s.readable.spurious t).map fun readable ↦ { s with readable := readable }
    | .wakeSender t v =>
        (s.writable.spurious (t, v)).map fun writable ↦ { s with writable := writable }

/-! ## The effects of a step -/

/-- What a section does to the channel, apart from waiting and waking. -/
inductive Effect (s : ChannelSystem τ α) : ChannelSystem τ α → Prop where
  | quiet (readable : CondVar τ) (writable : CondVar (τ × α)) :
      Effect s { s with readable := readable, writable := writable }
  | sent (t : τ) (v : α) (readable : CondVar τ) (writable : CondVar (τ × α))
      (hroom : s.channel.count ≠ s.channel.capacity) (hopen : s.channel.closed = false) :
      Effect s
        { channel := { s.channel with
            data := Function.update s.channel.data
              ((s.channel.head + s.channel.count) % s.channel.capacity) v
            count := s.channel.count + 1 }
          readable := readable
          writable := writable
          history := s.history ++ [.sent t v] }
  | sendRefused (t : τ) (readable : CondVar τ) (writable : CondVar (τ × α))
      (hclosed : s.channel.closed = true) :
      Effect s ⟨s.channel, readable, writable, s.history ++ [.sendRefused t]⟩
  | received (t : τ) (readable : CondVar τ) (writable : CondVar (τ × α))
      (hcount : s.channel.count ≠ 0) :
      Effect s
        { channel := { s.channel with
            head := (s.channel.head + 1) % s.channel.capacity
            count := s.channel.count - 1 }
          readable := readable
          writable := writable
          history := s.history ++ [.received t (s.channel.data s.channel.head)] }
  | receiveRefused (t : τ) (readable : CondVar τ) (writable : CondVar (τ × α))
      (hcount : s.channel.count = 0) (hclosed : s.channel.closed = true) :
      Effect s ⟨s.channel, readable, writable, s.history ++ [.receiveRefused t]⟩
  | closed (readable : CondVar τ) (writable : CondVar (τ × α)) :
      Effect s ⟨{ s.channel with closed := true }, readable, writable, s.history ++ [.closed]⟩

omit [DecidableEq α] in
theorem effect_of_send {s s' : ChannelSystem τ α} {t : τ} {v : α} {chosen : Multiset τ}
    {w : CondVar (τ × α)}
    (h : { s with writable := w }.send t v chosen = some s') : s.Effect s' := by
  rw [send] at h
  dsimp only at h
  split at h
  · cases h
    exact .quiet _ _
  · rename_i hwait
    split at h
    · rename_i hclosed
      cases h
      exact .sendRefused t _ _ hclosed
    · rename_i hopen
      rw [Bool.not_eq_true] at hopen
      obtain ⟨readable, -, rfl⟩ := Option.map_eq_some_iff.mp h
      exact .sent t v _ _ (fun hfull ↦ hwait ⟨hfull, hopen⟩) hopen

theorem effect_of_receive {s s' : ChannelSystem τ α} {t : τ} {chosen : Multiset (τ × α)}
    {r : CondVar τ}
    (h : { s with readable := r }.receive t chosen = some s') : s.Effect s' := by
  rw [receive] at h
  dsimp only at h
  split at h
  · cases h
    exact .quiet _ _
  · rename_i hwait
    split at h
    · rename_i hcount
      cases h
      refine .receiveRefused t _ _ hcount ?_
      cases hclosed : s.channel.closed with
      | false => exact absurd ⟨hcount, hclosed⟩ hwait
      | true => rfl
    · rename_i hcount
      obtain ⟨writable, -, rfl⟩ := Option.map_eq_some_iff.mp h
      exact .received t _ _ hcount

theorem effect_of_step {s s' : ChannelSystem τ α} {e : ChannelEvent τ α}
    (h : (transitions τ α).step s e = some s') : s.Effect s' := by
  cases e with
  | send t v chosen =>
      obtain ⟨-, h⟩ := Option.ite_none_right_eq_some.mp h
      exact effect_of_send (w := s.writable) h
  | sendAgain t v chosen =>
      obtain ⟨writable, -, h⟩ := Option.bind_eq_some_iff.mp h
      exact effect_of_send h
  | receive t chosen =>
      obtain ⟨-, h⟩ := Option.ite_none_right_eq_some.mp h
      exact effect_of_receive (r := s.readable) h
  | receiveAgain t chosen =>
      obtain ⟨readable, -, h⟩ := Option.bind_eq_some_iff.mp h
      exact effect_of_receive h
  | close =>
      cases h
      exact .closed _ _
  | wakeReceiver t =>
      obtain ⟨readable, -, rfl⟩ := Option.map_eq_some_iff.mp h
      exact .quiet _ _
  | wakeSender t v =>
      obtain ⟨writable, -, rfl⟩ := Option.map_eq_some_iff.mp h
      exact .quiet _ _

end ChannelSystem

end TinyCPlus.Runtime
