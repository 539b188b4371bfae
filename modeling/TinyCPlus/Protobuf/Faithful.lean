import TinyCPlus.Protobuf.RoundTrip

/-!
# Negative zero

A singular field is written if it is not equal to zero.  Of the messages that
can be encoded, decoding gives back those in which no field without presence
holds negative zero.
-/

namespace TinyCPlus.Protobuf

/-! ## Messages that are accepted -/

section Fold

variable {α : Type} {step : TcPbWriter → α → Except ℕ TcPbWriter} {xs : List α} {w w' : TcPbWriter}

theorem foldlM_ok (h : xs.foldlM step w = .ok w') : ∀ x ∈ xs, ∃ w w', step w x = .ok w' := by
  induction xs generalizing w with
  | nil => simp
  | cons x xs ih =>
      rw [List.foldlM_cons] at h
      cases hfirst : step w x with
      | error e =>
          rw [hfirst] at h
          cases h
      | ok w₁ =>
          rw [hfirst] at h
          rintro y (_ | ⟨_, hy⟩)
          · exact ⟨w, w₁, hfirst⟩
          · exact ih h y hy

theorem foldlM_error {e : ℕ} (hstep : ∀ x ∈ xs, ∀ w, step w x = .error e → e ≠ 0)
    (h : xs.foldlM step w = .error e) : e ≠ 0 := by
  induction xs generalizing w with
  | nil => cases h
  | cons x xs ih =>
      rw [List.foldlM_cons] at h
      cases hfirst : step w x with
      | error e' =>
          rw [hfirst] at h
          cases h
          exact hstep x List.mem_cons_self w hfirst
      | ok w₁ =>
          rw [hfirst] at h
          exact ih (fun y hy ↦ hstep y (List.mem_cons_of_mem x hy)) h

end Fold

section Accepted

variable {T : Type} {encodeChild : T → Message → List Byte × ℕ} {f : Field T} {w w' : TcPbWriter}
  {e : ℕ}

theorem writeText_ok {value : List Byte} (h : writeText f w value = .ok w') :
    f.type.isString = true → validUtf8 value = true := by
  intro hstring
  rw [writeText] at h
  split at h
  · cases h
  · rename_i hutf8
    exact Bool.eq_true_of_not_eq_false fun hbad ↦ hutf8 ⟨hstring, hbad⟩

theorem writeText_error {value : List Byte} (h : writeText f w value = .error e) : e ≠ 0 := by
  rw [writeText] at h
  split at h
  · cases h
    exact Nat.succ_ne_zero 2
  · cases h

theorem writeMessage_ok {t : T} {m : Message} (h : writeMessage encodeChild f t w m = .ok w') :
    (encodeChild t m).2 = 0 := by
  rw [writeMessage] at h
  dsimp only at h
  split at h
  · cases h
  · rename_i hok
    exact not_not.mp hok

theorem writeMessage_error {t : T} {m : Message}
    (h : writeMessage encodeChild f t w m = .error e) : e ≠ 0 := by
  rw [writeMessage] at h
  dsimp only at h
  split at h
  · rename_i herror
    cases h
    exact herror
  · cases h

theorem writePacked_error {k : NumberType} {values : List U64}
    (h : writePacked f k w values = .error e) : e ≠ 0 := by
  rw [writePacked] at h
  split at h
  · cases h
  · dsimp only at h
    split at h
    · rename_i herror
      cases h
      exact herror
    · cases h

theorem eq_error_of_ite {c : Prop} [Decidable c] {result : Except ℕ TcPbWriter}
    (h : (if c then result else .ok w) = .error e) : result = .error e := by
  split at h
  · exact h
  · cases h

theorem eq_ok_of_ite {c : Prop} [Decidable c] {result : Except ℕ TcPbWriter}
    (h : (if c then result else .ok w) = .ok w') : result = .ok w' ∨ ¬ c := by
  split at h
  · exact .inl h
  · exact .inr ‹_›

theorem encodeField_error {slot : Slot Message}
    (h : encodeField encodeChild f slot w = .error e) : e ≠ 0 := by
  rw [encodeField] at h
  split at h
  · split at h
    · split at h
      · exact writePacked_error h
      · cases h
    · cases eq_error_of_ite h
  · split at h
    · exact foldlM_error (fun x _ w hx ↦ writeText_error hx) h
    · exact writeText_error (eq_error_of_ite h)
  · split at h
    · exact foldlM_error (fun x _ w hx ↦ writeText_error hx) h
    · exact writeText_error (eq_error_of_ite h)
  · split at h
    · exact foldlM_error (fun x _ w hx ↦ writeMessage_error hx) h
    · split at h
      · exact writeMessage_error h
      · cases h

/-- A singular text that is not written is empty. -/
theorem text_eq_nil {has : Bool} {value : List Byte}
    (hdefault : f.DefaultWhenUnset (.text has value))
    (h : ¬ (if f.optional = true then (Slot.text (M := Message) has value).has
      else decide (0 < (Slot.text (M := Message) has value).textValue.length)) = true) :
    value = [] := by
  cases hopt : f.optional with
  | true =>
      simp only [hopt, if_true, Bool.not_eq_true] at h
      exact (hdefault hopt h).2
  | false =>
      simp only [hopt, Bool.false_eq_true, if_false, decide_eq_true_eq, Nat.not_lt] at h
      exact List.length_eq_zero_iff.mp (Nat.le_zero.mp h)

/-- A slot that is written holds texts and messages that can be written. -/
theorem encodeField_ok {child child' : T → Message → Prop} {text : List Byte → Prop}
    {slot : Slot Message} (hslot : f.Shaped text child slot) (hdefault : f.DefaultWhenUnset slot)
    (hchild : ∀ t, f.type = .message t → ∀ c ∈ slot.members, (encodeChild t c).2 = 0 →
      child' t c)
    (h : encodeField encodeChild f slot w = .ok w') :
    f.Shaped (validUtf8 · = true) child' slot := by
  rw [encodeField.eq_def] at h
  cases hslot with
  | number htype hrepeated hhas hvalue => exact .number htype hrepeated hhas hvalue
  | numbers htype hrepeated hvalues => exact .numbers htype hrepeated hvalues
  | @text has value htype hrepeated hhas hvalue =>
      refine .text htype hrepeated hhas fun hstring ↦ ?_
      rcases htype with hkind | hkind
      · simp only [hkind, hrepeated, Bool.false_eq_true, if_false] at h
        rcases eq_ok_of_ite h with hwrite | hnot
        · exact writeText_ok hwrite hstring
        · rw [text_eq_nil hdefault hnot]
          rfl
      · rw [hkind] at hstring
        cases hstring
  | @texts values htype hrepeated hvalues =>
      refine .texts htype hrepeated fun value hmem hstring ↦ ?_
      rcases htype with hkind | hkind
      · simp only [hkind, hrepeated, if_true] at h
        obtain ⟨w, w', hone⟩ := foldlM_ok h value hmem
        exact writeText_ok hone hstring
      · rw [hkind] at hstring
        cases hstring
  | @child t value htype hrepeated hvalue =>
      refine .child htype hrepeated fun c hc ↦ ?_
      cases hc
      simp only [htype, hrepeated, Bool.false_eq_true, if_false] at h
      exact hchild t htype c List.mem_cons_self (writeMessage_ok h)
  | @children t values htype hrepeated hvalues =>
      refine .children htype hrepeated fun c hc ↦ ?_
      simp only [htype, hrepeated, if_true] at h
      obtain ⟨w, w', hone⟩ := foldlM_ok h c hc
      exact hchild t htype c hc (writeMessage_ok hone)

end Accepted

namespace Schema

variable {T : Type} {S : Schema T}

/-- A message that `encode` accepts can be written, by induction on the levels. -/
theorem valid_of_encodeLevels {text : List Byte → Prop} {n d : ℕ} {t : T} {m : Message}
    (hm : S.Shape text d t m) (hdefault : S.Throughout Field.DefaultWhenUnset t m)
    (h : (S.encodeLevels n t m).2 = 0) : S.Valid n t m := by
  induction n generalizing d t m with
  | zero => cases h
  | succ n ih =>
      obtain ⟨d, rfl⟩ : ∃ k, d = k + 1 := by
        cases d with
        | zero => exact hm.elim
        | succ d => exact ⟨d, rfl⟩
      rw [encodeLevels] at h
      split at h
      · rename_i e hfold
        refine absurd h (foldlM_error (fun f hf w hstep ↦ ?_) hfold)
        exact encodeField_error hstep
      · rename_i w hfold
        refine ⟨fun f hf ↦ ?_, hm.2⟩
        obtain ⟨w, w', hfield⟩ := foldlM_ok hfold f hf
        refine encodeField_ok (hm.1 f hf) (hdefault.slots f hf) (fun t' htype c hc hok ↦ ?_) hfield
        exact ih (hm.member hf htype hc) (hdefault.members f hf t' htype c hc) hok

/-! ## Bit for bit -/

theorem restrict_self {text : List Byte → Prop} {n : ℕ} {t : T} {m : Message}
    (hm : S.Shape text n t m) : S.restrict n t m = m := by
  induction n generalizing t m with
  | zero => rfl
  | succ n ih =>
      refine Message.ext fun number ↦ ?_
      rw [restrict, Message.slot_mk]
      cases hfield : S.field t number with
      | none => exact (hm.2 number hfield).symm
      | some f =>
          obtain ⟨hf, rfl⟩ := field_eq_some hfield
          have hslot := hm.1 f hf
          have hmember {t' : T} (htype : f.type = .message t') :
              ∀ c ∈ (m.slot f.number).members, S.restrict n t' c = c :=
            fun c hc ↦ ih (hm.member hf htype hc)
          dsimp only
          generalize m.slot f.number = slot at hslot hmember
          rw [Field.restrictSlot.eq_def]
          cases hslot with
          | number htype | numbers htype => rw [htype]
          | text htype | texts htype => rcases htype with htype | htype <;> rw [htype]
          | @child t' value htype =>
              rw [htype]
              cases value with
              | none => rfl
              | some c =>
                  exact congrArg (fun c ↦ Slot.child (some c)) (hmember htype c List.mem_cons_self)
          | @children t' values htype =>
              rw [htype]
              have hsame : ∀ c ∈ values, S.restrict n t' c = id c := hmember htype
              dsimp only [Slot.map]
              rw [List.map_congr_left hsame, List.map_id]

/-- What is lost when a message is decoded is negative zero. -/
theorem not_negativeZero_of_merged {text : List Byte → Prop} {n : ℕ} {t : T} {m : Message}
    (hm : S.Shape text n t m) (h : S.merged n t (S.initial t) m = m) :
    S.Throughout (fun f slot ↦ ¬ f.NegativeZero slot) t m := by
  induction n generalizing t m with
  | zero => exact hm.elim
  | succ n ih =>
      have hslot (f : Field T) (hf : f ∈ S.fields t) :
          f.mergedSlot S.initial (S.merged n) f.initial (m.slot f.number) = m.slot f.number := by
        have hat := congrArg (fun m : Message ↦ m.slot f.number) h
        simpa only [merged, initial, Message.slot_mk, field_of_mem hf] using hat
      refine .intro (fun f hf ↦ ?_) fun f hf t' htype c hc ↦ ih (hm.member hf htype hc) ?_
      · rintro ⟨k, htype, hrepeated, hopt, hneg⟩
        have hnew := hslot f hf
        simp only [Field.mergedSlot, htype, hrepeated, hopt, NumberType.isZero_of_negativeZero hneg,
          Bool.false_eq_true, Bool.not_true, if_false] at hnew
        rw [← hnew] at hneg
        exact f.not_negativeZero_initial ⟨k, htype, hrepeated, hopt, hneg⟩
      · have hshaped := hm.1 f hf
        have hnew := hslot f hf
        generalize m.slot f.number = slot at hshaped hnew hc
        rw [Field.mergedSlot, Field.initial, htype] at hnew
        cases hshaped with
        | @child t value _ hrepeated =>
            obtain rfl := Option.mem_toList.mp hc
            simp only [hrepeated, Bool.false_eq_true, if_false] at hnew
            exact Option.some.inj (Slot.child.inj hnew)
        | @children t values _ hrepeated =>
            have hvalues : ¬ values = [] := List.ne_nil_of_mem hc
            simp only [hrepeated, if_true, Slot.childValues, if_neg hvalues, List.nil_append] at hnew
            have hsame : values.map (S.merged n t' (S.initial t')) = values.map id := by
              rw [List.map_id]
              exact Slot.children.inj hnew
            exact List.map_inj_left.mp hsame c hc
        | number | numbers | text | texts => cases hc

theorem isPart_refl (S : Schema T) : S.IsPart S := fun t ↦ List.Sublist.refl (S.fields t)

/-- A message that is encoded is decoded as it was if and only if no field
without presence holds negative zero, in the message or a message in it; no
other such message has this encoding. -/
theorem decode_encode_iff {d : ℕ} {t : T} {m : Message} {b : List Byte}
    (hm : S.Shape (fun _ ↦ True) d t m) (hdefault : S.Throughout Field.DefaultWhenUnset t m)
    (hencode : S.encode t m 0 = (b, 0)) :
    (S.decode t b = (m, 0) ↔ S.Throughout (fun f slot ↦ ¬ f.NegativeZero slot) t m) ∧
      (S.Throughout (fun f slot ↦ ¬ f.NegativeZero slot) t m →
        ∀ d' m', S.Shape (fun _ ↦ True) d' t m' → S.Throughout Field.DefaultWhenUnset t m' →
          S.Throughout (fun f slot ↦ ¬ f.NegativeZero slot) t m' → S.encode t m' 0 = (b, 0) →
            m' = m) := by
  have hback {d : ℕ} {m : Message} (hm : S.Shape (fun _ ↦ True) d t m)
      (hdefault : S.Throughout Field.DefaultWhenUnset t m) (hencode : S.encode t m 0 = (b, 0)) :
      S.decode t b = (m, 0) ↔ S.Throughout (fun f slot ↦ ¬ f.NegativeZero slot) t m := by
    have hvalid : S.Valid 65 t m :=
      valid_of_encodeLevels hm hdefault (congrArg Prod.snd hencode)
    have hbytes := encodeLevels_eq hvalid
    have hwritten : (S.wireBytes 65 t m).length ≤ limit ∧ S.wireBytes 65 t m = b := by
      rw [show S.encodeLevels 65 t m = (b, 0) from hencode, encoded] at hbytes
      split at hbytes
      · exact ⟨‹_›, (Prod.mk.inj hbytes).1.symm⟩
      · cases hbytes
    obtain ⟨hlength, rfl⟩ := hwritten
    have hmerged : S.decode t (S.wireBytes 65 t m) = (S.merged 65 t (S.initial t) m, 0) :=
      mergeLevels_wireBytes S.isPart_refl hvalid (S.initial t) hlength
    refine ⟨fun hdecode ↦ ?_, fun hzero ↦ ?_⟩
    · rw [hmerged] at hdecode
      exact not_negativeZero_of_merged hvalid (Prod.mk.inj hdecode).1
    · rw [hmerged, merged_initial S.isPart_refl hvalid hdefault hzero, restrict_self hvalid]
  refine ⟨hback hm hdefault hencode, fun hzero d' m' hm' hdefault' hzero' hencode' ↦ ?_⟩
  have hdecode := (hback hm hdefault hencode).mpr hzero
  rw [(hback hm' hdefault' hencode').mpr hzero'] at hdecode
  exact (Prod.mk.inj hdecode).1

/-- A message of the tests in which only the double is set. -/
def doubleMessage (value : U64) : Message :=
  (WireProto.schema.initial .wire).set 1 (.number false value)

theorem doubleMessage_shape (value : U64) :
    WireProto.schema.Shape (fun _ ↦ True) 1 .wire (doubleMessage value) :=
  Shape.set (S := WireProto.schema) (f := WireProto.one (.number .double) 1)
    (Shape.initial trivial 0 WireProto.wire) (by decide) (.number rfl rfl (by simp) value.isLt)

theorem doubleMessage_default (value : U64) :
    WireProto.schema.Throughout Field.DefaultWhenUnset .wire (doubleMessage value) :=
  Throughout.set (S := WireProto.schema) (f := WireProto.one (.number .double) 1)
    (.initial Field.defaultWhenUnset_initial WireProto.wire) (by decide) (fun h ↦ by cases h)
    fun t htype ↦ by cases htype

/-- Minus zero is not written. -/
theorem decode_encode_minus_zero :
    ¬ ∀ (T : Type) (S : Schema T) (d : ℕ) (t : T) (m : Message) (b : List Byte),
      S.Shape (fun _ ↦ True) d t m → S.Throughout Field.DefaultWhenUnset t m →
        S.encode t m 0 = (b, 0) → S.decode t b = (m, 0) := by
  intro h
  have hdecode := h WireProto WireProto.schema 1 .wire (doubleMessage 0x8000000000000000) []
    (doubleMessage_shape _) (doubleMessage_default _) (by decide +kernel)
  have hvalue := congrArg (fun x : Message × ℕ ↦ (x.1.slot 1).numberValue) hdecode
  exact absurd hvalue (by decide +kernel)

/-- One is written. -/
theorem decode_encode_iff_one :
    WireProto.schema.decode .wire [9, 0, 0, 0, 0, 0, 0, 0xf0, 0x3f] =
        (doubleMessage 0x3ff0000000000000, 0) ↔
      WireProto.schema.Throughout (fun f slot ↦ ¬ f.NegativeZero slot) .wire
        (doubleMessage 0x3ff0000000000000) :=
  (decode_encode_iff (doubleMessage_shape _) (doubleMessage_default _) (by decide +kernel)).1

end Schema

end TinyCPlus.Protobuf
