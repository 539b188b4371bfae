import TinyCPlus.Protobuf.Message

/-!
# Reads and the input behind them

A read that succeeds does not depend on the input behind what it takes, and no
read gives input back.
-/

namespace TinyCPlus.Protobuf

namespace TcPbReader

/-- The reader with more input behind its own. -/
def extend (r : TcPbReader) (y : List Byte) : TcPbReader := { r with rest := r.rest ++ y }

@[simp] theorem extend_rest (r : TcPbReader) (y : List Byte) : (r.extend y).rest = r.rest ++ y := rfl

@[simp] theorem extend_wire (r : TcPbReader) (y : List Byte) : (r.extend y).wire = r.wire := rfl

@[simp] theorem extend_error (r : TcPbReader) (y : List Byte) : (r.extend y).error = r.error := rfl

theorem done_eq_false_iff (r : TcPbReader) : r.done = false ↔ r.error = 0 ∧ r.rest ≠ [] := by
  simp [done]

theorem done_extend {r : TcPbReader} (h : r.done = false) (y : List Byte) :
    (r.extend y).done = false := by
  rw [done_eq_false_iff] at h ⊢
  exact ⟨h.1, fun hnil ↦ h.2 (List.append_eq_nil_iff.mp hnil).1⟩

end TcPbReader

/-- What a read has to do with the reader that it leaves. -/
structure Reads {α : Type} (read : TcPbReader → α × TcPbReader) : Prop where
  extend : ∀ {r : TcPbReader}, (read r).2.error = 0 → ∀ y,
    read (r.extend y) = ((read r).1, (read r).2.extend y)
  sticky : ∀ {r : TcPbReader}, r.error ≠ 0 → (read r).2.error ≠ 0
  shrinks : ∀ r : TcPbReader, (read r).2.rest.length ≤ r.rest.length

theorem varintLoop_append {n : ℕ} {value x : U64} {s s' : List Byte}
    (h : varintLoop n value s = (some x, s')) (y : List Byte) :
    varintLoop n value (s ++ y) = (some x, s' ++ y) := by
  induction n generalizing value s with
  | zero => cases h
  | succ n ih =>
      cases s with
      | nil => cases h
      | cons byte s =>
          rw [List.cons_append]
          rw [varintLoop] at h ⊢
          split at h
          · cases h
          · rename_i hlast
            rw [if_neg hlast]
            split at h
            · rename_i hmark
              rw [if_pos hmark]
              cases h
              rfl
            · rename_i hmark
              rw [if_neg hmark]
              exact ih h

theorem varintLoop_shrinks (n : ℕ) (value : U64) (s : List Byte) :
    (varintLoop n value s).2.length ≤ s.length := by
  induction n generalizing value s with
  | zero => exact le_rfl
  | succ n ih =>
      cases s with
      | nil => exact le_rfl
      | cons byte s =>
          rw [varintLoop]
          split
          · exact Nat.le_succ _
          · dsimp only
            split
            · exact Nat.le_succ _
            · exact (ih _ _).trans (Nat.le_succ _)

/-- A varint takes at least one byte. -/
theorem varintLoop_takes {value : U64} {s : List Byte} (hne : s ≠ []) (n : ℕ) :
    (varintLoop (n + 1) value s).2.length < s.length := by
  cases s with
  | nil => exact absurd rfl hne
  | cons byte s =>
      rw [varintLoop]
      split
      · exact Nat.lt_succ_self _
      · dsimp only
        split
        · exact Nat.lt_succ_self _
        · exact (varintLoop_shrinks _ _ _).trans_lt (Nat.lt_succ_self _)

theorem fixedLoop_append {n i : ℕ} {value : U64} {s : List Byte} (h : n ≤ s.length)
    (y : List Byte) :
    fixedLoop n i value (s ++ y) = ((fixedLoop n i value s).1, (fixedLoop n i value s).2 ++ y) := by
  induction n generalizing i value s with
  | zero => simp [fixedLoop]
  | succ n ih =>
      cases s with
      | nil => simp at h
      | cons byte s =>
          rw [List.cons_append, fixedLoop, fixedLoop]
          exact ih (Nat.le_of_succ_le_succ h)

theorem fixedLoop_shrinks (n i : ℕ) (value : U64) (s : List Byte) :
    (fixedLoop n i value s).2.length ≤ s.length := by
  induction n generalizing i value s with
  | zero => simp [fixedLoop]
  | succ n ih =>
      cases s with
      | nil => simp [fixedLoop]
      | cons byte s =>
          rw [fixedLoop]
          exact (ih _ _ _).trans (Nat.le_succ _)

namespace TcPbReader

theorem reads_varint : Reads readVarint where
  extend := by
    intro r h y
    rw [readVarint] at h ⊢
    by_cases herror : r.error ≠ 0
    · rw [if_pos herror] at h
      exact absurd h herror
    · rw [if_neg herror] at h
      rw [extend_error, if_neg herror, readVarint, if_neg herror]
      rcases hloop : varintLoop 10 0 r.rest with ⟨_ | x, s⟩
      · rw [hloop] at h
        cases h
      · rw [extend_rest, varintLoop_append hloop]
        rfl
  sticky := by
    intro r h
    rwa [readVarint, if_pos h]
  shrinks := by
    intro r
    rw [readVarint]
    split
    · exact le_rfl
    · have hloop := varintLoop_shrinks 10 0 r.rest
      rcases hsplit : varintLoop 10 0 r.rest with ⟨_ | x, s⟩ <;> rwa [hsplit] at hloop

theorem reads_fixed (count : ℕ) : Reads (readFixed · count) where
  extend := by
    intro r h y
    rw [readFixed] at h ⊢
    split at h
    · rename_i herror
      exact absurd h herror
    · rename_i hok
      split at h
      · cases h
      · rename_i hroom
        have hroom' : ¬ ((count ≠ 4 ∧ count ≠ 8) ∨ (r.extend y).rest.length < count) := by
          rw [extend_rest, List.length_append]
          omega
        have hlength : count ≤ r.rest.length := by omega
        rw [readFixed, extend_error, if_neg hok, if_neg hroom', if_neg hok, if_neg hroom,
          extend_rest, fixedLoop_append hlength]
        rfl
  sticky := by
    intro r h
    rwa [readFixed, if_pos h]
  shrinks := by
    intro r
    rw [readFixed]
    split
    · exact le_rfl
    · split
      · exact le_rfl
      · exact fixedLoop_shrinks count 0 0 r.rest

theorem reads_bytes : Reads readBytes where
  extend := by
    intro r h y
    rw [readBytes] at h ⊢
    have hvarint := reads_varint.extend (r := r)
    rcases hread : r.readVarint with ⟨length, r'⟩
    rw [hread] at h hvarint
    dsimp only at h
    split at h
    · cases h
    · rename_i hroom
      rw [not_or, not_not] at hroom
      rw [hvarint hroom.1 y, readBytes, hread]
      dsimp only
      have hlength : length.toNat ≤ r'.rest.length := Nat.not_lt.mp hroom.2
      have hroom' : ¬ ((r'.extend y).error ≠ 0 ∨ (r'.extend y).rest.length < length.toNat) := by
        rw [extend_error, extend_rest, List.length_append]
        omega
      rw [if_neg hroom', if_neg (by rw [not_or, not_not]; exact hroom), extend_rest,
        List.take_append_of_le_length hlength, List.drop_append_of_le_length hlength]
      rfl
  sticky := by
    intro r h
    rw [readBytes]
    have hsticky := reads_varint.sticky h
    dsimp only
    rw [if_pos (Or.inl hsticky)]
    exact Nat.succ_ne_zero 2
  shrinks := by
    intro r
    have hvarint := reads_varint.shrinks r
    rw [readBytes]
    dsimp only
    split
    · exact hvarint
    · dsimp only
      rw [List.length_drop]
      omega

/-! ## Tags -/

theorem next_extend {r : TcPbReader} (hdone : r.done = false) (h : r.next.2.error = 0)
    (y : List Byte) : (r.extend y).next = (r.next.1, r.next.2.extend y) := by
  have hopen : ¬ r.done = true := ne_true_of_eq_false hdone
  have hopen' : ¬ (r.extend y).done = true := ne_true_of_eq_false (done_extend hdone y)
  rw [next, if_neg hopen] at h
  rw [next, if_neg hopen', next, if_neg hopen]
  have hvarint := reads_varint.extend (r := r)
  rcases hread : r.readVarint with ⟨tag, r'⟩
  rw [hread] at h hvarint
  dsimp only at h
  split at h
  · cases h
  · rename_i hgood
    have hok : r'.error = 0 := by
      by_contra herror
      exact hgood (Or.inl herror)
    rw [hvarint hok y]
    dsimp only
    rw [extend_error, if_neg hgood, if_neg hgood]
    rfl

theorem readVarint_takes {t : TcPbReader} (hdone : t.done = false) :
    t.readVarint.2.rest.length < t.rest.length := by
  obtain ⟨hok, hne⟩ := t.done_eq_false_iff.mp hdone
  have htakes : (varintLoop 10 0 t.rest).2.length < t.rest.length := varintLoop_takes hne 9
  rw [readVarint, if_neg (not_not.mpr hok)]
  rcases hloop : varintLoop 10 0 t.rest with ⟨_ | x, s⟩ <;> rwa [hloop] at htakes

/-- A tag takes at least one byte. -/
theorem next_takes {r : TcPbReader} (hdone : r.done = false) :
    r.next.2.rest.length < r.rest.length := by
  have hread := readVarint_takes hdone
  rw [next, if_neg (ne_true_of_eq_false hdone)]
  dsimp only
  split <;> exact hread

/-- The number is zero only after an error. -/
theorem next_eq_zero_iff {r : TcPbReader} (hdone : r.done = false) :
    r.next.1 = 0 ↔ r.next.2.error ≠ 0 := by
  rw [next, if_neg (ne_true_of_eq_false hdone)]
  dsimp only
  split
  · exact ⟨fun _ ↦ Nat.succ_ne_zero 2, fun _ ↦ rfl⟩
  · rename_i hgood
    simp only [not_or, not_not] at hgood
    refine ⟨fun hzero ↦ absurd ?_ hgood.2.1, fun herror ↦ absurd hgood.1 herror⟩
    exact BitVec.eq_of_toNat_eq hzero

/-- The wire type of the last record does not matter. -/
theorem next_congr {s : List Byte} (hne : s ≠ []) (w w' : ℕ) :
    next ⟨s, w, 0⟩ = next ⟨s, w', 0⟩ := by
  have hdone (w : ℕ) : done ⟨s, w, 0⟩ = false := (done_eq_false_iff _).mpr ⟨rfl, hne⟩
  rw [next, next, hdone, hdone, readVarint, readVarint]
  rcases varintLoop 10 0 s with ⟨_ | x, s'⟩ <;> rfl

/-! ## Skipping -/

theorem skipGroup_of_error (fuel : ℕ) {r : TcPbReader} (h : r.error ≠ 0) (field depth : ℕ) :
    (skipGroup fuel r field depth).error ≠ 0 := by
  have hdone : r.done = true := by simp [done, h]
  cases fuel with
  | zero => exact Nat.succ_ne_zero 2
  | succ fuel =>
      rw [skipGroup, if_pos hdone]
      exact Nat.succ_ne_zero 2

theorem skipDepth_of_error {group : TcPbReader → ℕ → ℕ → TcPbReader} {r : TcPbReader}
    {field depth : ℕ} (hgroup : (group r field depth).error ≠ 0) (h : r.error ≠ 0) :
    (skipDepth group r field depth).error ≠ 0 := by
  rw [skipDepth]
  split
  · exact Nat.succ_ne_zero 2
  · split
    · exact reads_varint.sticky h
    · exact (reads_fixed 8).sticky h
    · exact reads_bytes.sticky h
    · exact (reads_fixed 4).sticky h
    · exact hgroup
    · exact Nat.succ_ne_zero 2

theorem skipDepth_shrinks {group : TcPbReader → ℕ → ℕ → TcPbReader} {r : TcPbReader}
    {field depth : ℕ} (hgroup : (group r field depth).rest.length ≤ r.rest.length) :
    (skipDepth group r field depth).rest.length ≤ r.rest.length := by
  rw [skipDepth]
  split
  · exact le_rfl
  · split
    · exact reads_varint.shrinks r
    · exact (reads_fixed 8).shrinks r
    · exact reads_bytes.shrinks r
    · exact (reads_fixed 4).shrinks r
    · exact hgroup
    · exact le_rfl

theorem skipDepth_extend {group group' : TcPbReader → ℕ → ℕ → TcPbReader} {r : TcPbReader}
    {field depth : ℕ} {y : List Byte}
    (hgroup : (group r field depth).error = 0 →
      group' (r.extend y) field depth = (group r field depth).extend y)
    (h : (skipDepth group r field depth).error = 0) :
    skipDepth group' (r.extend y) field depth = (skipDepth group r field depth).extend y := by
  rw [skipDepth] at h ⊢
  split at h
  · cases h
  · rename_i hdepth
    rw [if_neg hdepth, skipDepth, if_neg hdepth, extend_wire]
    split at h
    · exact congrArg Prod.snd (reads_varint.extend h y)
    · exact congrArg Prod.snd ((reads_fixed 8).extend h y)
    · exact congrArg Prod.snd (reads_bytes.extend h y)
    · exact congrArg Prod.snd ((reads_fixed 4).extend h y)
    · exact hgroup h
    · cases h

theorem skipGroup_shrinks (fuel : ℕ) (r : TcPbReader) (field depth : ℕ) :
    (skipGroup fuel r field depth).rest.length ≤ r.rest.length := by
  induction fuel generalizing r field depth with
  | zero => exact le_rfl
  | succ fuel ih =>
      rw [skipGroup]
      split
      · exact le_rfl
      · rename_i hdone
        have hnext := (next_takes (Bool.eq_false_of_not_eq_true hdone)).le
        dsimp only
        split
        · split <;> exact hnext
        · exact (ih _ _ _).trans ((skipDepth_shrinks (ih _ _ _)).trans hnext)

/-- A group that is skipped ends before the input behind it; more fuel does not
matter. -/
theorem skipGroup_extend {fuel fuel' : ℕ} (hfuel : fuel ≤ fuel') {r : TcPbReader}
    {field depth : ℕ} (h : (skipGroup fuel r field depth).error = 0) (y : List Byte) :
    skipGroup fuel' (r.extend y) field depth = (skipGroup fuel r field depth).extend y := by
  induction fuel generalizing fuel' r field depth with
  | zero => cases h
  | succ fuel ih =>
      obtain ⟨fuel', rfl⟩ : ∃ n, fuel' = n + 1 := ⟨fuel' - 1, by omega⟩
      rw [skipGroup] at h ⊢
      split at h
      · cases h
      · rename_i hgo
        have hdone : r.done = false := Bool.eq_false_of_not_eq_true hgo
        have hopen : ¬ (r.extend y).done = true := ne_true_of_eq_false (done_extend hdone y)
        have hnext := next_extend hdone
        have hzero := next_eq_zero_iff hdone
        rcases hread : r.next with ⟨number, r'⟩
        rw [hread] at h hnext hzero
        dsimp only at h hzero
        rw [if_neg hopen, skipGroup, if_neg hgo, hread]
        dsimp only
        split at h
        · rename_i hend
          split at h
          · cases h
          · rename_i hsame
            rw [hnext h y]
            dsimp only
            rw [extend_wire, if_pos hend, if_neg hsame, if_pos hend, if_neg hsame]
        · rename_i hinside
          have hok : r'.error = 0 := by
            by_contra herror
            exact skipGroup_of_error fuel (skipDepth_of_error
              (skipGroup_of_error fuel herror _ _) herror) _ _ h
          have hmember : (skipDepth (skipGroup fuel) r' number (depth + 1)).error = 0 := by
            by_contra herror
            exact skipGroup_of_error fuel herror _ _ h
          rw [hnext hok y]
          dsimp only
          rw [extend_wire, if_neg hinside, if_neg hinside,
            skipDepth_extend (fun hgroup ↦ ih (Nat.le_of_succ_le_succ hfuel) hgroup) hmember]
          exact ih (Nat.le_of_succ_le_succ hfuel) h

theorem reads_skip (field : ℕ) : Reads fun r ↦ ((), r.skip field) where
  extend := by
    intro r h y
    refine congrArg (Prod.mk ()) (skipDepth_extend (fun hgroup ↦ skipGroup_extend ?_ hgroup y) h)
    rw [extend_rest, List.length_append]
    omega
  sticky := fun h ↦ skipDepth_of_error (skipGroup_of_error _ h _ _) h
  shrinks := fun _ ↦ skipDepth_shrinks (skipGroup_shrinks _ _ _ _)

end TcPbReader

end TinyCPlus.Protobuf
