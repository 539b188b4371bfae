import TinyCPlus.Tui.EventQueue

/-!
# Replaying a text as keys

`tc_ui_replay` decodes one code point, moves the offset of its caller behind it and posts a key.
It moves the offset before it knows whether the queue takes the event.
-/

namespace TinyCPlus.Tui

namespace EventRing

/-- The key event of a code point. -/
def keyEvent (cp : ℕ) : UiEvent := QueueCall.event 1 (if cp < 128 then cp else 0) 0 0 cp

/-- `tc_ui_replay`: the result, the offset and the queue after the call. -/
def replay (u : EventRing) (input : List UInt8) (offset : ℕ) : ℤ × ℕ × EventRing :=
  if input.length ≤ offset then (1, offset, u)
  else
    let (cp, position) := utf8Decode input offset
    let posted := u.post 1 (if cp < 128 then cp else 0) 0 0 cp
    (posted.1, position, posted.2)

/-- The event is the newest in the queue, and nothing else has changed. -/
def Posted (u u' : EventRing) (e : UiEvent) : Prop :=
  u.post e.kind e.key e.x e.y e.codepoint = (0, u')

/-- The call has replayed the code point at the offset, or it has failed without a change. -/
def ReplayedOrUnchanged (u : EventRing) (input : List UInt8) (offset : ℕ) : Prop :=
  let r := u.replay input offset
  (r.1 = 0 ∧ offset < input.length ∧ r.2.1 = (utf8Decode input offset).2 ∧
      Posted u r.2.2 (keyEvent (utf8Decode input offset).1)) ∨
    (r.1 ≠ 0 ∧ r.2.1 = offset ∧ r.2.2 = u)

section

variable {u : EventRing} {input : List UInt8} {offset : ℕ}

theorem replay_end (h : input.length ≤ offset) : u.replay input offset = (1, offset, u) :=
  if_pos h

theorem replay_full (h : offset < input.length) (hfull : 64 ≤ u.eventWrite - u.eventRead) :
    u.replay input offset = (8, (utf8Decode input offset).2, u) := by
  rw [replay, if_neg (not_le.mpr h)]
  simp only [post, if_pos hfull]

theorem replay_posts (h : offset < input.length) (hfree : u.eventWrite - u.eventRead < 64) :
    (u.replay input offset).1 = 0 ∧
      (u.replay input offset).2.1 = (utf8Decode input offset).2 ∧
      Posted u (u.replay input offset).2.2 (keyEvent (utf8Decode input offset).1) := by
  rw [replay, if_neg (not_le.mpr h)]
  simp only [Posted, keyEvent, QueueCall.event, post, if_neg (UInt32.not_le.mpr hfree)]
  exact ⟨trivial, trivial, trivial⟩

theorem replayedOrUnchanged_iff (u : EventRing) (input : List UInt8) (offset : ℕ) :
    u.ReplayedOrUnchanged input offset ↔
      input.length ≤ offset ∨ u.eventWrite - u.eventRead < 64 := by
  unfold ReplayedOrUnchanged
  rcases le_or_gt input.length offset with hend | hmore
  · simp [replay_end hend, hend]
  · by_cases hfree : u.eventWrite - u.eventRead < 64
    · exact iff_of_true (.inl ⟨(replay_posts hmore hfree).1, hmore, (replay_posts hmore hfree).2⟩)
        (.inr hfree)
    · have hfull := UInt32.not_lt.mp hfree
      have hmoves := utf8Decode_lt hmore
      simp only [replay_full hmore hfull]
      refine iff_of_false ?_ ?_
      · rintro (⟨hcode, -⟩ | ⟨-, hoffset, -⟩)
        · cases hcode
        · omega
      · rintro (hend | hroom)
        · omega
        · exact hfree hroom

end

/-! ## Callers -/

/-- What a caller does: it replays, or it takes an event from the queue. -/
inductive ReplayCall where
  | replay
  | next

/-- The offset and the queue after calls. -/
def after (input : List UInt8) : ℕ × EventRing → List ReplayCall → ℕ × EventRing
  | s, [] => s
  | s, .replay :: rest => after input (s.2.replay input s.1).2 rest
  | s, .next :: rest => after input (s.1, s.2.next.2) rest

/-- The events that calls of `tc_ui_replay` put into the queue. -/
def replayed (input : List UInt8) : ℕ × EventRing → List ReplayCall → List UiEvent
  | _, [] => []
  | s, .replay :: rest =>
      let r := s.2.replay input s.1
      if r.1 = 0 then keyEvent (utf8Decode input s.1).1 :: replayed input r.2 rest
      else replayed input r.2 rest
  | s, .next :: rest => replayed input (s.1, s.2.next.2) rest

/-- No call of `tc_ui_replay` meets a full queue before the end of the text. -/
def Roomy (input : List UInt8) : ℕ × EventRing → List ReplayCall → Prop
  | _, [] => True
  | s, .replay :: rest =>
      (input.length ≤ s.1 ∨ s.2.eventWrite - s.2.eventRead < 64) ∧
        Roomy input (s.2.replay input s.1).2 rest
  | s, .next :: rest => Roomy input (s.1, s.2.next.2) rest

/-- The code points of the text between two offsets. -/
inductive Decodes (input : List UInt8) : ℕ → List ℕ → ℕ → Prop where
  | nil (p : ℕ) : Decodes input p [] p
  | cons {p q : ℕ} {cps : List ℕ} (hp : p < input.length)
      (h : Decodes input (utf8Decode input p).2 cps q) :
      Decodes input p ((utf8Decode input p).1 :: cps) q

theorem replayed_eq {input : List UInt8} {s : ℕ × EventRing} {calls : List ReplayCall}
    (h : Roomy input s calls) :
    ∃ cps, Decodes input s.1 cps (after input s calls).1 ∧
      replayed input s calls = cps.map keyEvent := by
  induction calls generalizing s with
  | nil => exact ⟨[], .nil s.1, rfl⟩
  | cons call rest ih =>
      cases call with
      | next => exact ih h
      | replay =>
          obtain ⟨hcondition, hrest⟩ := h
          obtain ⟨cps, hdecodes, hreplayed⟩ := ih hrest
          rcases le_or_gt input.length s.1 with hend | hmore
          · refine ⟨cps, ?_, ?_⟩
            · rw [replay_end hend] at hdecodes
              rw [after, replay_end hend]
              exact hdecodes
            · rw [replayed, hreplayed, replay_end hend]
              simp
          · have hfree := hcondition.resolve_left (not_le.mpr hmore)
            obtain ⟨hcode, hoffset, -⟩ := replay_posts hmore hfree
            refine ⟨(utf8Decode input s.1).1 :: cps, .cons hmore ?_, ?_⟩
            · rw [hoffset] at hdecodes
              exact hdecodes
            · rw [replayed, hreplayed]
              simp [hcode]

/-- A call of `tc_ui_replay` replays the code point at the offset or fails without a change,
exactly when the offset is at the end of the text or the queue has room.  A caller that only calls
it then replays every code point that it passes once, in order. -/
theorem replay_iff (input : List UInt8) :
    (∀ (u : EventRing) (offset : ℕ), u.ReplayedOrUnchanged input offset ↔
      input.length ≤ offset ∨ u.eventWrite - u.eventRead < 64) ∧
    ∀ (s : ℕ × EventRing) (calls : List ReplayCall), Roomy input s calls →
      ∃ cps, Decodes input s.1 cps (after input s calls).1 ∧
        replayed input s calls = cps.map keyEvent :=
  ⟨fun u offset ↦ replayedOrUnchanged_iff u input offset, fun _ _ ↦ replayed_eq⟩

/-- The queue after 64 posts of zeros. -/
def sixtyFour : EventRing := { new with eventWrite := 64 }

/-- The letter `a` is replayed into a queue with 64 events: the result is 8, and the offset has
moved. -/
theorem not_forall_replayedOrUnchanged :
    ¬∀ (input : List UInt8) (u : EventRing) (offset : ℕ), u.ReplayedOrUnchanged input offset := by
  intro hall
  have hfull : 64 ≤ sixtyFour.eventWrite - sixtyFour.eventRead := by decide
  have hreplay := replay_full (show 0 < [97].length by decide) hfull
  rcases hall [97] sixtyFour 0 with ⟨hcode, -⟩ | ⟨-, hoffset, -⟩
  · rw [hreplay] at hcode
    cases hcode
  · rw [hreplay] at hoffset
    cases hoffset

end EventRing

end TinyCPlus.Tui
