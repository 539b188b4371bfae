import TinyCPlus.Runtime.Channel

/-!
# Channels strand no element

While a receiver waits, every element in the buffer has a receiver on its way,
and while a sender waits, every free place has a sender on its way.
-/

namespace TinyCPlus.Runtime

open TinyCPlus.Library

variable {τ α : Type*}

/-- The waiting threads are covered by wake-ups, and none waits after close. -/
structure WakeInv (s : ChannelSystem τ α) : Prop where
  receivers : s.readable.Covers s.channel.count
  senders : s.writable.Covers (s.channel.capacity - s.channel.count)
  closed : s.channel.closed = true → s.readable.waiting = 0 ∧ s.writable.waiting = 0

namespace ChannelSystem

theorem wakeInv_create (capacity : ℕ) (data : ℕ → α) :
    WakeInv (create capacity data : ChannelSystem τ α) :=
  ⟨CondVar.covers_empty _, CondVar.covers_empty _, fun _ ↦ ⟨rfl, rfl⟩⟩

theorem wakeInv_close (s : ChannelSystem τ α) : WakeInv s.close :=
  ⟨CondVar.covers_of_waiting rfl _, CondVar.covers_of_waiting rfl _, fun _ ↦ ⟨rfl, rfl⟩⟩

variable [DecidableEq τ]

/-- A sender that takes a free place, or waits because there is none. -/
theorem wakeInv_send {s s' : ChannelSystem τ α} {t : τ} {v : α} {chosen : Multiset τ}
    (hreceivers : s.readable.Covers s.channel.count)
    (hsenders : s.writable.Covers (s.channel.capacity - s.channel.count - 1))
    (hclosed : s.channel.closed = true → s.readable.waiting = 0 ∧ s.writable.waiting = 0)
    (h : s.send t v chosen = some s') : WakeInv s' := by
  rw [send] at h
  dsimp only at h
  split at h
  · rename_i hfull
    cases h
    refine ⟨hreceivers, ?_, fun hend ↦ ?_⟩
    · have hnone : s.channel.capacity - s.channel.count = 0 := by
        rw [hfull.1, Nat.sub_self]
      dsimp only
      rw [hnone]
      exact CondVar.covers_zero _
    · rw [hfull.2] at hend
      cases hend
  · split at h
    · rename_i hend
      cases h
      obtain ⟨hread, hwrite⟩ := hclosed hend
      exact ⟨hreceivers, CondVar.covers_of_waiting hwrite _, hclosed⟩
    · rename_i hopen
      obtain ⟨readable, hsignal, rfl⟩ := Option.map_eq_some_iff.mp h
      exact ⟨hreceivers.signal hsignal, hsenders, fun hend ↦ absurd hend hopen⟩

variable [DecidableEq α]

theorem wakeInv_receive {s s' : ChannelSystem τ α} {t : τ} {chosen : Multiset (τ × α)}
    (hreceivers : s.readable.Covers (s.channel.count - 1))
    (hsenders : s.writable.Covers (s.channel.capacity - s.channel.count))
    (hclosed : s.channel.closed = true → s.readable.waiting = 0 ∧ s.writable.waiting = 0)
    (h : s.receive t chosen = some s') : WakeInv s' := by
  rw [receive] at h
  dsimp only at h
  split at h
  · rename_i hempty
    cases h
    refine ⟨?_, hsenders, fun hend ↦ ?_⟩
    · dsimp only
      rw [hempty.1]
      exact CondVar.covers_zero _
    · rw [hempty.2] at hend
      cases hend
  · split at h
    · rename_i hwait hempty
      cases h
      refine ⟨?_, hsenders, hclosed⟩
      rw [record, hempty]
      exact CondVar.covers_zero _
    · obtain ⟨writable, hsignal, rfl⟩ := Option.map_eq_some_iff.mp h
      refine ⟨hreceivers, (hsenders.signal hsignal).mono ?_, fun hend ↦ ?_⟩
      · dsimp only [record]
        omega
      · obtain ⟨hread, hwrite⟩ := hclosed hend
        obtain ⟨-, -, rfl⟩ := CondVar.signal_eq_some hsignal
        refine ⟨hread, ?_⟩
        dsimp only [record]
        rw [hwrite, Multiset.zero_sub]

theorem WakeInv.step {s s' : ChannelSystem τ α} {e : ChannelEvent τ α} (hs : WakeInv s)
    (h : (transitions τ α).step s e = some s') : WakeInv s' := by
  obtain ⟨hreceivers, hsenders, hclosed⟩ := hs
  cases e with
  | send t v chosen =>
      obtain ⟨-, h⟩ := Option.ite_none_right_eq_some.mp h
      exact wakeInv_send hreceivers (hsenders.mono (Nat.sub_le _ _)) hclosed h
  | sendAgain t v chosen =>
      obtain ⟨writable, hresume, h⟩ := Option.bind_eq_some_iff.mp h
      refine wakeInv_send (s := { s with writable := writable }) hreceivers
        (hsenders.resume hresume) (fun hend ↦ ?_) h
      obtain ⟨-, rfl⟩ := CondVar.resume_eq_some hresume
      exact hclosed hend
  | receive t chosen =>
      obtain ⟨-, h⟩ := Option.ite_none_right_eq_some.mp h
      exact wakeInv_receive (hreceivers.mono (Nat.sub_le _ _)) hsenders hclosed h
  | receiveAgain t chosen =>
      obtain ⟨readable, hresume, h⟩ := Option.bind_eq_some_iff.mp h
      refine wakeInv_receive (s := { s with readable := readable }) (hreceivers.resume hresume)
        hsenders (fun hend ↦ ?_) h
      obtain ⟨-, rfl⟩ := CondVar.resume_eq_some hresume
      exact hclosed hend
  | close =>
      cases h
      exact wakeInv_close s
  | wakeReceiver t =>
      obtain ⟨readable, hspurious, rfl⟩ := Option.map_eq_some_iff.mp h
      refine ⟨hreceivers.spurious hspurious, hsenders, fun hend ↦ ?_⟩
      obtain ⟨hmem, -⟩ := CondVar.spurious_eq_some hspurious
      rw [(hclosed hend).1] at hmem
      exact absurd hmem (Multiset.notMem_zero t)
  | wakeSender t v =>
      obtain ⟨writable, hspurious, rfl⟩ := Option.map_eq_some_iff.mp h
      refine ⟨hreceivers, hsenders.spurious hspurious, fun hend ↦ ?_⟩
      obtain ⟨hmem, -⟩ := CondVar.spurious_eq_some hspurious
      rw [(hclosed hend).2] at hmem
      exact absurd hmem (Multiset.notMem_zero _)

end ChannelSystem

variable [DecidableEq τ] [DecidableEq α]

/-- In every state of every run: while a receiver waits without a wake-up, the
buffer holds at most as many elements as there are woken receivers; likewise
for senders and free places; and after close nobody waits without a wake-up. -/
theorem channel_strands_nothing {capacity : ℕ} {data : ℕ → α}
    {events : List (ChannelEvent τ α)} {s : ChannelSystem τ α}
    (h : (ChannelSystem.transitions τ α).run (.create capacity data) events = some s) :
    (s.readable.waiting ≠ 0 → s.channel.count ≤ s.readable.woken.card) ∧
      (s.writable.waiting ≠ 0 →
        s.channel.capacity - s.channel.count ≤ s.writable.woken.card) ∧
      (s.channel.closed = true → s.readable.waiting = 0 ∧ s.writable.waiting = 0) := by
  have hinv : WakeInv s := Transitions.run_invariant ChannelSystem.WakeInv.step
    (ChannelSystem.wakeInv_create capacity data) h
  exact ⟨hinv.receivers, hinv.senders, hinv.closed⟩

/-- A newcomer takes the element before the woken receiver goes on. -/
theorem channel_strands_nothing_newcomer :
    ∃ s : ChannelSystem ℕ ℕ, (ChannelSystem.transitions ℕ ℕ).run (.create 2 fun _ ↦ 0)
        [.receive 0 0, .receive 1 0, .send 2 7 {0}, .receive 3 0, .receiveAgain 0 0,
          .send 2 8 {1}] = some s ∧
      (s.readable.waiting ≠ 0 → s.channel.count ≤ s.readable.woken.card) := by
  have hrun : ((ChannelSystem.transitions ℕ ℕ).run (.create 2 fun _ ↦ 0)
      [.receive 0 0, .receive 1 0, .send 2 7 {0}, .receive 3 0, .receiveAgain 0 0,
        .send 2 8 {1}]).isSome = true := by decide +kernel
  obtain ⟨s, hs⟩ := Option.isSome_iff_exists.mp hrun
  exact ⟨s, hs, (channel_strands_nothing hs).1⟩

end TinyCPlus.Runtime
