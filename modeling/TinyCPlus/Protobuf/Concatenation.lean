import TinyCPlus.Protobuf.ReadAhead

/-!
# Merging is a fold over the records

To merge two inputs one behind the other is to merge the first and then the
second into the result.
-/

namespace TinyCPlus.Protobuf

open TcPbReader

theorem Reads.map {α β : Type} {read : TcPbReader → α × TcPbReader} (h : Reads read)
    (g : α → β) : Reads fun r ↦ (g (read r).1, (read r).2) where
  extend := fun {r} hok y ↦ by rw [h.extend hok y]
  sticky := h.sticky
  shrinks := h.shrinks

theorem reads_number (k : NumberType) : Reads (readNumber k) := by
  cases k <;> first
    | exact reads_varint.map _
    | exact (reads_fixed 8).map _
    | exact (reads_fixed 4).map _

/-- The end of a record: an error, or the next one. -/
def finish (x : Message × Option ℕ) (r : TcPbReader) : Message × Except ℕ TcPbReader :=
  (x.1, x.2.elim (.ok r) .error)

section Record

variable {T : Type} {S : Schema T} {mergeChild : T → Message → List Byte → Message × ℕ}

/-- A record is read, and what was read decides about the message. -/
structure MergesBy {α : Type} (merge : TcPbReader → Message × Except ℕ TcPbReader) (w : ℕ)
    (read : TcPbReader → α × TcPbReader) (result : α → Message × Option ℕ) : Prop where
  reads : Reads read
  error_ne : ∀ a e, (result a).2 = some e → e ≠ 0
  eq : ∀ r : TcPbReader, r.wire = w → merge r = finish (result (read r).1) (read r).2

/-- Some way to read and decide. -/
def Merges (merge : TcPbReader → Message × Except ℕ TcPbReader) (w : ℕ) : Prop :=
  ∃ (α : Type) (read : TcPbReader → α × TcPbReader) (result : α → Message × Option ℕ),
    MergesBy merge w read result

theorem merges_skip (m : Message) (number w : ℕ) :
    Merges (fun r ↦ (m, .ok (r.skip number))) w :=
  ⟨Unit, _, fun _ ↦ (m, none), reads_skip number, fun _ _ h ↦ (by cases h), fun _ _ ↦ rfl⟩

theorem mergeField_number {f : Field T} {k : NumberType} (htype : f.type = .number k)
    (m : Message) (w : ℕ) : Merges (mergeField S mergeChild f m) w := by
  by_cases hpacked : f.repeated = true ∧ w = 2
  · refine ⟨_, _, fun bytes ↦
      let r := readPacked k (bytes.length + 1) (TcPbReader.create bytes)
      (m.set f.number (.numbers ((m.slot f.number).numberValues ++ r.1)),
        if r.2.error ≠ 0 then some r.2.error else none), reads_bytes,
      fun bytes e he ↦ ?_, fun r hr ↦ ?_⟩
    · dsimp only at he
      split at he <;> cases he
      assumption
    · rw [mergeField, htype]
      dsimp only
      rw [hr, if_pos hpacked, finish]
      dsimp only
      split <;> rfl
  · by_cases hwire : w = k.wire
    · refine ⟨_, _, fun value ↦
        (if f.repeated then
            m.set f.number (.numbers ((m.slot f.number).numberValues ++ [value]))
          else m.set f.number (.number ((m.slot f.number).has || f.optional) value), none),
        reads_number k, fun _ _ he ↦ (by cases he), fun r hr ↦ ?_⟩
      rw [mergeField, htype]
      dsimp only
      rw [hr, if_neg hpacked, if_neg (not_not.mpr hwire), finish]
      dsimp only
      split <;> rfl
    · obtain ⟨α, read, result, hreads, hne, heq⟩ := merges_skip m f.number w
      refine ⟨α, read, result, hreads, hne, fun r hr ↦ ?_⟩
      rw [← heq r hr, mergeField, htype]
      dsimp only
      rw [hr, if_neg hpacked, if_pos hwire]

theorem mergeField_text {f : Field T} (htype : f.type = .string ∨ f.type = .bytes)
    (m : Message) (w : ℕ) : Merges (mergeField S mergeChild f m) w := by
  by_cases hwire : w = 2
  · refine ⟨_, _, fun text ↦
      if f.type.isString = true ∧ validUtf8 text = false then (m, some 3)
      else if f.repeated then
        (m.set f.number (.texts ((m.slot f.number).textValues ++ [text])), none)
      else (m.set f.number (.text ((m.slot f.number).has || f.optional) text), none),
      reads_bytes, fun text e he ↦ ?_, fun r hr ↦ ?_⟩
    · split at he
      · cases he
        exact Nat.succ_ne_zero 2
      · split at he <;> cases he
    · rcases htype with htype | htype <;>
      · rw [mergeField, htype]
        dsimp only
        rw [hr, if_neg (not_not.mpr hwire), finish]
        split
        · rfl
        · split <;> rfl
  · obtain ⟨α, read, result, hreads, hne, heq⟩ := merges_skip m f.number w
    refine ⟨α, read, result, hreads, hne, fun r hr ↦ ?_⟩
    rw [← heq r hr, mergeField]
    rcases htype with htype | htype <;>
    · rw [htype]
      dsimp only
      rw [hr, if_pos hwire]

theorem mergeField_message {f : Field T} {t : T} (htype : f.type = .message t)
    (m : Message) (w : ℕ) : Merges (mergeField S mergeChild f m) w := by
  by_cases hwire : w = 2
  · refine ⟨_, _, fun bytes ↦
      let x :=
        if f.repeated then
          let r := mergeChild t (S.initial t) bytes
          (m.set f.number (.children ((m.slot f.number).childValues ++ [r.1])), r.2)
        else
          let r := mergeChild t ((m.slot f.number).childValue.getD (S.initial t)) bytes
          (m.set f.number (.child (some r.1)), r.2)
      (x.1, if x.2 ≠ 0 then some x.2 else none),
      reads_bytes, fun bytes e he ↦ ?_, fun r hr ↦ ?_⟩
    · obtain ⟨hne, heq⟩ := Option.ite_none_right_eq_some.mp he
      rwa [← Option.some.inj heq]
    · rw [mergeField, htype]
      dsimp only
      rw [hr, if_neg (not_not.mpr hwire), finish]
      split <;> dsimp only <;> split <;> rfl
  · obtain ⟨α, read, result, hreads, hne, heq⟩ := merges_skip m f.number w
    refine ⟨α, read, result, hreads, hne, fun r hr ↦ ?_⟩
    rw [← heq r hr, mergeField, htype]
    dsimp only
    rw [hr, if_pos hwire]

theorem mergeRecord_merges (t : T) (number : ℕ) (m : Message) (w : ℕ) :
    Merges (mergeRecord S mergeChild t number m) w := by
  cases hfield : S.field t number with
  | none =>
      obtain ⟨α, read, result, hreads, hne, heq⟩ := merges_skip m number w
      refine ⟨α, read, result, hreads, hne, fun r hr ↦ ?_⟩
      rw [← heq r hr, mergeRecord, hfield]
  | some f =>
      have hmerges : Merges (mergeField S mergeChild f m) w := by
        cases htype : f.type with
        | number k => exact mergeField_number htype m w
        | string => exact mergeField_text (.inl htype) m w
        | bytes => exact mergeField_text (.inr htype) m w
        | message t => exact mergeField_message htype m w
      obtain ⟨α, read, result, hreads, hne, heq⟩ := hmerges
      refine ⟨α, read, result, hreads, hne, fun r hr ↦ ?_⟩
      rw [← heq r hr, mergeRecord, hfield]

/-- A record that ends well does not depend on the input behind it. -/
theorem mergeRecord_extend {t : T} {number : ℕ} {m m' : Message} {r r' : TcPbReader}
    (h : mergeRecord S mergeChild t number m r = (m', .ok r')) (hok : r'.error = 0)
    (y : List Byte) :
    mergeRecord S mergeChild t number m (r.extend y) = (m', .ok (r'.extend y)) := by
  obtain ⟨α, read, result, hreads, -, heq⟩ : Merges (mergeRecord S mergeChild t number m) r.wire :=
    mergeRecord_merges t number m r.wire
  rw [heq r rfl, finish] at h
  rw [heq (r.extend y) rfl, finish]
  cases herror : (result (read r).1).2 with
  | some e =>
      rw [herror] at h
      cases h
  | none =>
      rw [herror] at h
      cases h
      rw [hreads.extend hok y, herror]
      rfl

theorem mergeRecord_shrinks {t : T} {number : ℕ} {m m' : Message} {r r' : TcPbReader}
    (h : mergeRecord S mergeChild t number m r = (m', .ok r')) :
    r'.rest.length ≤ r.rest.length := by
  obtain ⟨α, read, result, hreads, -, heq⟩ : Merges (mergeRecord S mergeChild t number m) r.wire :=
    mergeRecord_merges t number m r.wire
  rw [heq r rfl, finish] at h
  cases herror : (result (read r).1).2 with
  | some e =>
      rw [herror] at h
      cases h
  | none =>
      rw [herror] at h
      cases h
      exact hreads.shrinks r

theorem mergeRecord_error {t : T} {number : ℕ} {m m' : Message} {r : TcPbReader} {e : ℕ}
    (h : mergeRecord S mergeChild t number m r = (m', .error e)) : e ≠ 0 := by
  obtain ⟨α, read, result, -, hne, heq⟩ : Merges (mergeRecord S mergeChild t number m) r.wire :=
    mergeRecord_merges t number m r.wire
  rw [heq r rfl, finish] at h
  cases herror : (result (read r).1).2 with
  | some e' =>
      rw [herror] at h
      cases h
      exact hne _ _ herror
  | none =>
      rw [herror] at h
      cases h

end Record

/-! ## The loop -/

section Loop

variable {T : Type} {S : Schema T} {mergeChild : T → Message → List Byte → Message × ℕ} {t : T}

theorem mergeLoop_of_done {r : TcPbReader} (hdone : r.done = true) (fuel : ℕ) (m : Message) :
    mergeLoop S mergeChild t fuel m r = (m, r.error) := by
  cases fuel with
  | zero => rfl
  | succ fuel => rw [mergeLoop, if_pos hdone]

theorem mergeLoop_of_error {r : TcPbReader} (herror : r.error ≠ 0) (fuel : ℕ) (m : Message) :
    (mergeLoop S mergeChild t fuel m r).2 ≠ 0 := by
  rw [mergeLoop_of_done (by simp [done, herror])]
  exact herror

/-- One turn of the loop. -/
theorem mergeLoop_succ {r : TcPbReader} (hdone : r.done = false) (fuel : ℕ) (m : Message) :
    mergeLoop S mergeChild t (fuel + 1) m r =
      if r.next.1 = 0 then (m, r.next.2.error)
      else
        match mergeRecord S mergeChild t r.next.1 m r.next.2 with
        | (m, .ok r) => mergeLoop S mergeChild t fuel m r
        | (m, .error error) => (m, error) := by
  have hopen : ¬ r.done = true := ne_true_of_eq_false hdone
  rw [mergeLoop]
  exact if_neg hopen

/-- The fuel does not matter when there is enough. -/
theorem mergeLoop_fuel {fuel fuel' : ℕ} {m : Message} {r : TcPbReader}
    (hfuel : r.rest.length < fuel) (hfuel' : r.rest.length < fuel') :
    mergeLoop S mergeChild t fuel m r = mergeLoop S mergeChild t fuel' m r := by
  induction fuel generalizing fuel' m r with
  | zero => omega
  | succ fuel ih =>
      obtain ⟨fuel', rfl⟩ : ∃ n, fuel' = n + 1 := ⟨fuel' - 1, by omega⟩
      cases hdone : r.done with
      | true => rw [mergeLoop_of_done hdone, mergeLoop_of_done hdone]
      | false =>
          rw [mergeLoop_succ hdone, mergeLoop_succ hdone]
          split
          · rfl
          · have htakes := next_takes hdone
            rcases hrecord : mergeRecord S mergeChild t r.next.1 m r.next.2 with ⟨m', e | r'⟩
            · rfl
            · have hshrinks := mergeRecord_shrinks hrecord
              exact ih (by omega) (by omega)

theorem mergeLoop_wire {s : List Byte} (w w' fuel : ℕ) (m : Message) :
    mergeLoop S mergeChild t fuel m ⟨s, w, 0⟩ = mergeLoop S mergeChild t fuel m ⟨s, w', 0⟩ := by
  rcases eq_or_ne s [] with rfl | hne
  · rw [mergeLoop_of_done rfl, mergeLoop_of_done rfl]
  · cases fuel with
    | zero => rfl
    | succ fuel =>
        have hdone (w : ℕ) : done ⟨s, w, 0⟩ = false := (done_eq_false_iff _).mpr ⟨rfl, hne⟩
        rw [mergeLoop_succ (hdone w), mergeLoop_succ (hdone w'), next_congr hne w w']

/-- The loop over an input goes on behind its end. -/
theorem mergeLoop_append {fuel fuel' fuel'' : ℕ} {m m' : Message} {r : TcPbReader}
    {y : List Byte} (h : mergeLoop S mergeChild t fuel m r = (m', 0))
    (hfuel : r.rest.length < fuel) (hfuel' : (r.extend y).rest.length < fuel')
    (hfuel'' : y.length < fuel'') (w : ℕ) :
    mergeLoop S mergeChild t fuel' m (r.extend y) =
      mergeLoop S mergeChild t fuel'' m' ⟨y, w, 0⟩ := by
  induction fuel generalizing fuel' m r with
  | zero => omega
  | succ fuel ih =>
      cases hdone : r.done with
      | true =>
          rw [mergeLoop_of_done hdone] at h
          obtain ⟨rfl, herror⟩ := Prod.mk.inj h
          have hrest : r.rest = [] := by
            by_contra hne
            rw [(done_eq_false_iff r).mpr ⟨herror, hne⟩] at hdone
            cases hdone
          have hextend : r.extend y = ⟨y, r.wire, 0⟩ := by
            rw [extend, hrest, herror, List.nil_append]
          rw [hextend] at hfuel' ⊢
          rw [mergeLoop_wire r.wire w]
          exact mergeLoop_fuel hfuel' hfuel''
      | false =>
          obtain ⟨fuel', rfl⟩ : ∃ n, fuel' = n + 1 := ⟨fuel' - 1, by omega⟩
          have htakes := next_takes hdone
          rw [mergeLoop_succ hdone] at h
          split at h
          · rename_i hzero
            have herror : r.next.2.error = 0 := (Prod.mk.inj h).2
            exact absurd herror ((next_eq_zero_iff hdone).mp hzero)
          · rename_i hnumber
            have hok : r.next.2.error = 0 := by
              by_contra herror
              exact hnumber ((next_eq_zero_iff hdone).mpr herror)
            rcases hrecord : mergeRecord S mergeChild t r.next.1 m r.next.2 with ⟨m₁, e | r₁⟩
            · rw [hrecord] at h
              have herror : e = 0 := (Prod.mk.inj h).2
              exact absurd herror (mergeRecord_error hrecord)
            · rw [hrecord] at h
              have hok₁ : r₁.error = 0 := by
                by_contra herror
                exact mergeLoop_of_error herror fuel m₁ (congrArg Prod.snd h)
              have hshrinks := mergeRecord_shrinks hrecord
              rw [mergeLoop_succ (done_extend hdone y), next_extend hdone hok]
              dsimp only
              rw [if_neg hnumber, mergeRecord_extend hrecord hok₁]
              rw [extend_rest, List.length_append] at hfuel'
              refine ih h (by omega) ?_
              rw [extend_rest, List.length_append]
              omega

end Loop

namespace Schema

variable {T : Type} {S : Schema T}

theorem mergeLevels_append {n : ℕ} {t : T} {m m' : Message} {x y : List Byte}
    (hlength : x.length + y.length ≤ limit) (hx : S.mergeLevels n t m x = (m', 0)) :
    S.mergeLevels n t m (x ++ y) = S.mergeLevels n t m' y := by
  cases n with
  | zero => cases hx
  | succ n =>
      rw [mergeLevels] at hx ⊢
      have hcreate {s : List Byte} (hs : s.length ≤ limit) : TcPbReader.create s = ⟨s, 0, 0⟩ := by
        rw [TcPbReader.create, if_neg (Nat.not_lt.mpr hs)]
      rw [hcreate (by omega)] at hx
      rw [mergeLevels, hcreate (by rw [List.length_append]; exact hlength), hcreate (by omega)]
      exact mergeLoop_append hx (Nat.lt_succ_self _) (Nat.lt_succ_self _) (Nat.lt_succ_self _) 0

end Schema

end TinyCPlus.Protobuf
