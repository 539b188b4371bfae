import TinyCPlus.Library.History
import TinyCPlus.Runtime.Channel

/-!
# Channels lose, repeat and reorder nothing

The values received are the first of the values sent, and the buffer holds the
others, whatever the threads do.
-/

namespace TinyCPlus.Runtime

open TinyCPlus.Library

variable {τ α : Type*}

def sentValue : Outcome τ α → Option α
  | .sent _ v => some v
  | _ => none

def receivedValue : Outcome τ α → Option α
  | .received _ v => some v
  | _ => none

/-- The values of the sends that succeeded, in the order they took effect. -/
def sentValues (history : List (Outcome τ α)) : List α := history.filterMap sentValue

/-- The values received, in the order the receives took effect. -/
def receivedValues (history : List (Outcome τ α)) : List α := history.filterMap receivedValue

theorem sentValues_snoc (history : List (Outcome τ α)) (x : Outcome τ α) :
    sentValues (history ++ [x]) = sentValues history ++ (sentValue x).toList :=
  filterMap_snoc _ _ _

theorem receivedValues_snoc (history : List (Outcome τ α)) (x : Outcome τ α) :
    receivedValues (history ++ [x]) = receivedValues history ++ (receivedValue x).toList :=
  filterMap_snoc _ _ _

/-- The elements in the buffer, the oldest first. -/
def TcChannel.buffered (c : TcChannel α) : List α :=
  (List.range c.count).map fun i ↦ c.data ((c.head + i) % c.capacity)

/-! ## The ring -/

/-- A new element goes behind the others. -/
theorem TcChannel.buffered_send {c : TcChannel α} (hroom : c.count < c.capacity) (v : α) :
    TcChannel.buffered { c with
      data := Function.update c.data ((c.head + c.count) % c.capacity) v
      count := c.count + 1 } = c.buffered ++ [v] := by
  rw [buffered, buffered, List.range_succ, List.map_append]
  congr 1
  · refine List.map_congr_left fun i hi ↦ ?_
    rw [List.mem_range] at hi
    refine Function.update_of_ne ?_ _ _
    intro heq
    have hmod : c.head + i ≡ c.head + c.count [MOD c.capacity] := heq
    have hsame := Nat.ModEq.add_left_cancel' c.head hmod
    have hi' : i = c.count := Nat.ModEq.eq_of_lt_of_lt hsame (hi.trans hroom) hroom
    omega
  · simp

/-- The oldest element is taken off. -/
theorem TcChannel.buffered_receive {c : TcChannel α} (hhead : c.head < c.capacity)
    (hcount : c.count ≠ 0) :
    c.buffered = c.data c.head :: TcChannel.buffered { c with
      head := (c.head + 1) % c.capacity
      count := c.count - 1 } := by
  obtain ⟨n, hn⟩ := Nat.exists_eq_succ_of_ne_zero hcount
  rw [buffered, buffered, hn, Nat.succ_sub_one, List.range_succ_eq_map, List.map_cons,
    List.map_map, Nat.add_zero, Nat.mod_eq_of_lt hhead]
  congr 1
  refine List.map_congr_left fun i _ ↦ ?_
  simp only [Function.comp_apply, Nat.mod_add_mod]
  rw [Nat.succ_eq_add_one, Nat.add_right_comm, Nat.add_assoc]

/-! ## The history -/

/-- When an outcome may follow the outcomes before it: no send succeeds after
close, and a receive fails only on a closed and empty channel. -/
def Allowed (pre : List (Outcome τ α)) : Outcome τ α → Prop
  | .sent _ _ => Outcome.closed ∉ pre
  | .receiveRefused _ => Outcome.closed ∈ pre ∧ sentValues pre = receivedValues pre
  | _ => True

/-- What the history and the channel have to do with each other. -/
structure ChannelInv (s : ChannelSystem τ α) : Prop where
  head_lt : s.channel.head < s.channel.capacity
  count_le : s.channel.count ≤ s.channel.capacity
  values : sentValues s.history = receivedValues s.history ++ s.channel.buffered
  closed_iff : s.channel.closed = true ↔ Outcome.closed ∈ s.history
  allowed : Each Allowed s.history

theorem channelInv_create {capacity : ℕ} (hpos : 0 < capacity) (data : ℕ → α) :
    ChannelInv (ChannelSystem.create capacity data : ChannelSystem τ α) where
  head_lt := hpos
  count_le := Nat.zero_le _
  values := rfl
  closed_iff := by simp [ChannelSystem.create]
  allowed := each_nil _

theorem ChannelInv.effect {s s' : ChannelSystem τ α} (hs : ChannelInv s) (h : s.Effect s') :
    ChannelInv s' := by
  obtain ⟨hhead, hcount, hvalues, hclosed, hallowed⟩ := hs
  cases h with
  | quiet readable writable => exact ⟨hhead, hcount, hvalues, hclosed, hallowed⟩
  | sent t v readable writable hroom hopen =>
      have hlt : s.channel.count < s.channel.capacity := lt_of_le_of_ne hcount hroom
      have hnot : Outcome.closed ∉ s.history := by
        rw [← hclosed, hopen]
        exact Bool.false_ne_true
      refine ⟨hhead, hlt, ?_, by simpa using hclosed, hallowed.snoc hnot⟩
      dsimp only
      rw [TcChannel.buffered_send hlt, sentValues_snoc, receivedValues_snoc, hvalues]
      simp [sentValue, receivedValue]
  | sendRefused t readable writable =>
      refine ⟨hhead, hcount, ?_, by simpa using hclosed, hallowed.snoc trivial⟩
      simpa [sentValues_snoc, receivedValues_snoc, sentValue, receivedValue] using hvalues
  | received t readable writable hne =>
      have hpos : 0 < s.channel.capacity := (Nat.zero_le _).trans_lt hhead
      refine ⟨Nat.mod_lt _ hpos, (Nat.sub_le _ _).trans hcount, ?_, by simpa using hclosed,
        hallowed.snoc trivial⟩
      rw [TcChannel.buffered_receive hhead hne] at hvalues
      simpa [sentValues_snoc, receivedValues_snoc, sentValue, receivedValue] using hvalues
  | receiveRefused t readable writable hzero hended =>
      have hempty : sentValues s.history = receivedValues s.history := by
        rw [hvalues, TcChannel.buffered, hzero]
        simp
      refine ⟨hhead, hcount, ?_, by simpa using hclosed,
        hallowed.snoc ⟨hclosed.mp hended, hempty⟩⟩
      simpa [sentValues_snoc, receivedValues_snoc, sentValue, receivedValue] using hvalues
  | closed readable writable =>
      refine ⟨hhead, hcount, ?_, by simp, hallowed.snoc trivial⟩
      simpa [sentValues_snoc, receivedValues_snoc, sentValue, receivedValue,
        TcChannel.buffered] using hvalues

/-! ## Every run -/

variable [DecidableEq τ] [DecidableEq α]

theorem ChannelInv.run {s s' : ChannelSystem τ α} {events : List (ChannelEvent τ α)}
    (hs : ChannelInv s) (h : (ChannelSystem.transitions τ α).run s events = some s') :
    ChannelInv s' :=
  Transitions.run_invariant
    (fun hinv hstep ↦ hinv.effect (ChannelSystem.effect_of_step hstep)) hs h

/-- In every state of every run the ring is in range, the values received are
the first of the values sent and the buffer holds the rest; no send succeeds
after close, and a receive fails only when the channel is closed and empty. -/
theorem channel_fifo {capacity : ℕ} (hpos : 0 < capacity) {data : ℕ → α}
    {events : List (ChannelEvent τ α)} {s : ChannelSystem τ α}
    (h : (ChannelSystem.transitions τ α).run (.create capacity data) events = some s) :
    s.channel.head < s.channel.capacity ∧ s.channel.count ≤ s.channel.capacity ∧
      sentValues s.history = receivedValues s.history ++ s.channel.buffered ∧
      (∀ pre t v post, s.history = pre ++ .sent t v :: post → Outcome.closed ∉ pre) ∧
      ∀ pre t post, s.history = pre ++ .receiveRefused t :: post →
        Outcome.closed ∈ pre ∧ sentValues pre = receivedValues pre := by
  have hinv := (channelInv_create hpos data).run h
  exact ⟨hinv.head_lt, hinv.count_le, hinv.values,
    fun pre t v post hsplit ↦ hinv.allowed pre (.sent t v) post hsplit,
    fun pre t post hsplit ↦ hinv.allowed pre (.receiveRefused t) post hsplit⟩

theorem channel_fifo_two_sends :
    ∃ s : ChannelSystem ℕ ℕ, (ChannelSystem.transitions ℕ ℕ).run (.create 1 fun _ ↦ 0)
        [.receive 0 0, .send 1 7 {0}, .send 1 8 0, .receiveAgain 0 {(1, 8)}, .close,
          .sendAgain 1 8 0] = some s ∧
      sentValues s.history = receivedValues s.history ++ s.channel.buffered := by
  have hrun : ((ChannelSystem.transitions ℕ ℕ).run (.create 1 fun _ ↦ 0)
      [.receive 0 0, .send 1 7 {0}, .send 1 8 0, .receiveAgain 0 {(1, 8)}, .close,
        .sendAgain 1 8 0]).isSome = true := by decide +kernel
  obtain ⟨s, hs⟩ := Option.isSome_iff_exists.mp hrun
  exact ⟨s, hs, (channel_fifo one_pos hs).2.2.1⟩

end TinyCPlus.Runtime
