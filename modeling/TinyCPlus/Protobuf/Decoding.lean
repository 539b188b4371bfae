import TinyCPlus.Protobuf.Concatenation
import TinyCPlus.Protobuf.Encoding

/-!
# What decoding accepts

Merging keeps a message of the schema one that `encode` can write, for any
input, so that what was accepted can be sent on.
-/

namespace TinyCPlus.Protobuf

namespace Schema

variable {T : Type} {S : Schema T} {t : T}

theorem field_eq_some {number : ℕ} {f : Field T} (h : S.field t number = some f) :
    f ∈ S.fields t ∧ number = f.number := by
  have hnumber := List.find?_some h
  exact ⟨List.mem_of_find?_eq_some h, beq_iff_eq.mp hnumber⟩

theorem field_of_mem {f : Field T} (hf : f ∈ S.fields t) : S.field t f.number = some f := by
  cases hfield : S.field t f.number with
  | none =>
      have hne := List.find?_eq_none.mp hfield f hf
      exact absurd (beq_self_eq_true _) hne
  | some g =>
      obtain ⟨hg, hnumber⟩ := field_eq_some hfield
      rw [List.inj_on_of_nodup_map (S.distinct t) hg hf hnumber.symm]

end Schema

/-! ## Slots of a field -/

namespace Field

variable {T : Type} {f : Field T} {text : List Byte → Prop} {child : T → Message → Prop}

theorem shaped_initial (f : Field T) (htext : text []) : f.Shaped text child f.initial := by
  rw [initial]
  cases htype : f.type with
  | number k =>
      dsimp only
      split
      · exact .numbers htype ‹_› (by simp)
      · rename_i hrepeated
        refine .number htype (Bool.eq_false_of_not_eq_true hrepeated) (by simp) ?_
        cases k <;> decide
  | string =>
      dsimp only
      split
      · exact .texts (.inl htype) ‹_› (by simp)
      · exact .text (.inl htype) (Bool.eq_false_of_not_eq_true ‹_›) (by simp) fun _ ↦ htext
  | bytes =>
      dsimp only
      split
      · exact .texts (.inr htype) ‹_› (by simp)
      · exact .text (.inr htype) (Bool.eq_false_of_not_eq_true ‹_›) (by simp) fun _ ↦ htext
  | message t =>
      dsimp only
      split
      · exact .children htype ‹_› (by simp)
      · exact .child htype (Bool.eq_false_of_not_eq_true ‹_›) (by simp)

namespace Shaped

variable {slot : Slot Message}

theorem optional_of_has (h : f.Shaped text child slot) (hhas : slot.has = true) :
    f.optional = true := by
  cases h with
  | number _ _ hopt _ => exact hopt hhas
  | text _ _ hopt _ => exact hopt hhas
  | numbers | texts | child | children => cases hhas

theorem numberValues_lt {k : NumberType} (h : f.Shaped text child slot)
    (htype : f.type = .number k) : ∀ value ∈ slot.numberValues, value.toNat < 2 ^ k.bits := by
  cases h with
  | numbers htype' _ hvalues =>
      obtain rfl : _ = k := FieldType.number.inj (htype'.symm.trans htype)
      exact hvalues
  | number | text | texts | child | children => simp [Slot.numberValues]

theorem text_textValues (h : f.Shaped text child slot) (hstring : f.type.isString = true) :
    ∀ value ∈ slot.textValues, text value := by
  cases h with
  | texts _ _ hvalues => exact fun value hmem ↦ hvalues value hmem hstring
  | number | numbers | text | child | children => simp [Slot.textValues]

theorem child_childValue {t : T} (h : f.Shaped text child slot) (htype : f.type = .message t) :
    ∀ m ∈ slot.childValue, child t m := by
  cases h with
  | child htype' _ hvalue =>
      obtain rfl : _ = t := FieldType.message.inj (htype'.symm.trans htype)
      exact hvalue
  | number | numbers | text | texts | children => simp [Slot.childValue]

theorem child_childValues {t : T} (h : f.Shaped text child slot) (htype : f.type = .message t) :
    ∀ m ∈ slot.childValues, child t m := by
  cases h with
  | children htype' _ hvalues =>
      obtain rfl : _ = t := FieldType.message.inj (htype'.symm.trans htype)
      exact hvalues
  | number | numbers | text | texts | child => simp [Slot.childValues]

end Shaped

end Field

namespace Schema

variable {T : Type} {S : Schema T} {t : T} {text : List Byte → Prop}

theorem Shape.initial (htext : text []) (n : ℕ) (t : T) :
    S.Shape text (n + 1) t (S.initial t) := by
  refine ⟨fun f hf ↦ ?_, fun number hfield ↦ ?_⟩
  · rw [Schema.initial, Message.slot_mk, field_of_mem hf]
    exact f.shaped_initial htext
  · rw [Schema.initial, Message.slot_mk, hfield]

theorem Shape.set {n : ℕ} {m : Message} (h : S.Shape text (n + 1) t m) {f : Field T}
    (hf : f ∈ S.fields t) {slot : Slot Message} (hslot : f.Shaped text (S.Shape text n) slot) :
    S.Shape text (n + 1) t (m.set f.number slot) := by
  refine ⟨fun g hg ↦ ?_, fun number hfield ↦ ?_⟩
  · rw [Message.slot_set]
    by_cases hnumber : g.number = f.number
    · have hsame : g = f := List.inj_on_of_nodup_map (S.distinct t) hg hf hnumber
      rw [hsame, Function.update_self]
      exact hslot
    · rw [Function.update_of_ne hnumber]
      exact h.1 g hg
  · have hnumber : number ≠ f.number := by
      rintro rfl
      rw [field_of_mem hf] at hfield
      cases hfield
    rw [Message.slot_set, Function.update_of_ne hnumber]
    exact h.2 number hfield

end Schema

/-! ## Numbers that are read -/

theorem NumberType.ofWire_lt (k : NumberType) (x : U64) : (k.ofWire x).toNat < 2 ^ k.bits := by
  have hlow (y : U64) : ((y.setWidth 32).setWidth 64).toNat < 2 ^ 32 := by
    rw [BitVec.toNat_setWidth, BitVec.toNat_setWidth]
    omega
  cases k with
  | double | int64 | uint64 | fixed64 | sfixed64 => exact x.isLt
  | sint64 => exact (unzigzag x).isLt
  | int32 | uint32 | fixed32 | sfixed32 | float | enum => exact hlow x
  | sint32 => exact hlow (unzigzag x)
  | bool =>
      rw [ofWire]
      split <;> decide

theorem readPacked_lt {k : NumberType} {fuel : ℕ} {r : TcPbReader} :
    ∀ value ∈ (readPacked k fuel r).1, value.toNat < 2 ^ k.bits := by
  induction fuel generalizing r with
  | zero => simp [readPacked]
  | succ fuel ih =>
      rw [readPacked]
      split
      · simp
      · intro value hvalue
        rcases List.mem_cons.mp hvalue with rfl | hvalue
        · exact k.ofWire_lt _
        · exact ih value hvalue

/-! ## Merging -/

section Merge

variable {T : Type} {S : Schema T} {mergeChild : T → Message → List Byte → Message × ℕ} {t : T}
  {n : ℕ} {m m' : Message}

theorem mergeText_valid {f : Field T} (htype : f.type = .string ∨ f.type = .bytes)
    (hf : f ∈ S.fields t) (hm : S.Valid (n + 1) t m) {r r' : TcPbReader}
    (h : mergeField S mergeChild f m r = (m', .ok r')) : S.Valid (n + 1) t m' := by
  have hslot := hm.1 f hf
  rcases htype with hkind | hkind <;>
  · have htype : f.type = .string ∨ f.type = .bytes := by simp [hkind]
    rw [mergeField] at h
    simp only [hkind] at h
    split at h
    · cases h
      exact hm
    · split at h
      · cases h
      · rename_i hutf8
        have htext (hstring : f.type.isString = true) : validUtf8 r.readBytes.1 = true := by
          rw [hkind] at hstring
          exact Bool.eq_true_of_not_eq_false fun hbad ↦ hutf8 ⟨hstring, hbad⟩
        split at h
        · rename_i hrepeated
          cases h
          refine hm.set hf (.texts htype hrepeated fun value hvalue hstring ↦ ?_)
          rcases List.mem_append.mp hvalue with hold | hlast
          · exact hslot.text_textValues hstring value hold
          · rw [List.mem_singleton.mp hlast]
            exact htext hstring
        · rename_i hrepeated
          cases h
          refine hm.set hf (.text htype (Bool.eq_false_of_not_eq_true hrepeated) ?_ htext)
          intro hhas
          rcases (Bool.or_eq_true _ _).mp hhas with hold | hopt
          · exact hslot.optional_of_has hold
          · exact hopt

/-- A record that is merged leaves a message that can be written. -/
theorem mergeField_valid
    (hchild : ∀ t m input m', S.Valid n t m → mergeChild t m input = (m', 0) → S.Valid n t m')
    (hnew : ∀ t input m', mergeChild t (S.initial t) input = (m', 0) → S.Valid n t m')
    {f : Field T} (hf : f ∈ S.fields t) (hm : S.Valid (n + 1) t m) {r r' : TcPbReader}
    (h : mergeField S mergeChild f m r = (m', .ok r')) : S.Valid (n + 1) t m' := by
  have hslot := hm.1 f hf
  have hmerge := h
  rw [mergeField] at h
  split at h
  · rename_i k htype
    split at h
    · rename_i hpacked
      dsimp only at h
      split at h
      · cases h
      · cases h
        refine hm.set hf (.numbers htype hpacked.1 fun value hvalue ↦ ?_)
        rcases List.mem_append.mp hvalue with hold | hnew
        · exact hslot.numberValues_lt htype value hold
        · exact readPacked_lt value hnew
    · split at h
      · cases h
        exact hm
      · dsimp only at h
        split at h
        · rename_i hrepeated
          cases h
          refine hm.set hf (.numbers htype hrepeated fun value hvalue ↦ ?_)
          rcases List.mem_append.mp hvalue with hold | hnew
          · exact hslot.numberValues_lt htype value hold
          · rw [List.mem_singleton.mp hnew]
            exact k.ofWire_lt _
        · rename_i hrepeated
          cases h
          refine hm.set hf (.number htype (Bool.eq_false_of_not_eq_true hrepeated) ?_
            (k.ofWire_lt _))
          intro hhas
          rcases (Bool.or_eq_true _ _).mp hhas with hold | hopt
          · exact hslot.optional_of_has hold
          · exact hopt
  · exact mergeText_valid (.inl ‹_›) hf hm hmerge
  · exact mergeText_valid (.inr ‹_›) hf hm hmerge
  · rename_i t' htype
    split at h
    · cases h
      exact hm
    · dsimp only at h
      split at h
      · rename_i hrepeated
        split at h
        · cases h
        · rename_i herror
          cases h
          refine hm.set hf (.children htype hrepeated fun c hc ↦ ?_)
          rcases List.mem_append.mp hc with hold | hlast
          · exact hslot.child_childValues htype c hold
          · rw [List.mem_singleton.mp hlast]
            exact hnew _ _ _ (Prod.ext rfl (not_not.mp herror))
      · rename_i hrepeated
        split at h
        · cases h
        · rename_i herror
          cases h
          refine hm.set hf (.child htype (Bool.eq_false_of_not_eq_true hrepeated) fun c hc ↦ ?_)
          cases hc
          cases hold : (m.slot f.number).childValue with
          | none =>
              rw [hold] at herror
              exact hnew _ _ _ (Prod.ext rfl (not_not.mp herror))
          | some old =>
              rw [hold] at herror
              exact hchild _ _ _ _ (hslot.child_childValue htype old hold)
                (Prod.ext rfl (not_not.mp herror))

theorem mergeRecord_valid
    (hchild : ∀ t m input m', S.Valid n t m → mergeChild t m input = (m', 0) → S.Valid n t m')
    (hnew : ∀ t input m', mergeChild t (S.initial t) input = (m', 0) → S.Valid n t m')
    {number : ℕ} (hm : S.Valid (n + 1) t m) {r r' : TcPbReader}
    (h : mergeRecord S mergeChild t number m r = (m', .ok r')) : S.Valid (n + 1) t m' := by
  rw [mergeRecord] at h
  split at h
  · rename_i f hfield
    exact mergeField_valid hchild hnew (Schema.field_eq_some hfield).1 hm h
  · cases h
    exact hm

/-- The loop keeps a message that can be written, by induction on the records. -/
theorem mergeLoop_valid
    (hchild : ∀ t m input m', S.Valid n t m → mergeChild t m input = (m', 0) → S.Valid n t m')
    (hnew : ∀ t input m', mergeChild t (S.initial t) input = (m', 0) → S.Valid n t m')
    {fuel : ℕ} (hm : S.Valid (n + 1) t m) {r : TcPbReader}
    (h : mergeLoop S mergeChild t fuel m r = (m', 0)) : S.Valid (n + 1) t m' := by
  induction fuel generalizing m r with
  | zero => rwa [← (Prod.mk.inj h).1]
  | succ fuel ih =>
      cases hdone : r.done with
      | true =>
          rw [mergeLoop_of_done hdone] at h
          rwa [← (Prod.mk.inj h).1]
      | false =>
          rw [mergeLoop_succ hdone] at h
          split at h
          · rwa [← (Prod.mk.inj h).1]
          · rcases hrecord : mergeRecord S mergeChild t r.next.1 m r.next.2 with ⟨m₁, e | r₁⟩
            · rw [hrecord] at h
              exact absurd (Prod.mk.inj h).2 (mergeRecord_error hrecord)
            · rw [hrecord] at h
              exact ih (mergeRecord_valid hchild hnew hm hrecord) h

end Merge

namespace Schema

variable {T : Type} {S : Schema T}

theorem mergeLevels_valid {n : ℕ} {t : T} {m m' : Message} {input : List Byte}
    (hm : S.Valid n t m) (h : S.mergeLevels n t m input = (m', 0)) : S.Valid n t m' := by
  induction n generalizing t m m' input with
  | zero => exact hm.elim
  | succ n ih =>
      refine mergeLoop_valid (fun t m input m' hm h ↦ ih hm h) ?_ hm h
      intro t input m' hnew
      cases n with
      | zero => cases hnew
      | succ n => exact ih (Shape.initial (by rfl) n t) hnew

/-- What was decoded can be encoded unless it is too long, for any input that is
accepted. -/
theorem encode_of_decode {t : T} {input : List Byte} {m : Message}
    (h : S.decode t input = (m, 0)) :
    S.encode t m 0 =
      if (S.wireBytes 65 t m).length ≤ limit then (S.wireBytes 65 t m, 0) else ([], 8) :=
  encodeLevels_eq (mergeLevels_valid (Shape.initial (by rfl) 64 t) h)

/-- A number in more bytes than it needs, and numbers that are not packed. -/
theorem encode_of_decode_overlong :
    WireProto.schema.encode .wire
        (WireProto.schema.decode .wire [0x18, 0x81, 0x80, 0x00, 0x88, 0x01, 0x02]).1 0 =
      ([0x18, 0x01, 0x8a, 0x01, 0x01, 0x02], 0) := by
  rw [encode_of_decode (Prod.ext rfl (by decide +kernel))]
  decide +kernel

end Schema

end TinyCPlus.Protobuf
