import TinyCPlus.Protobuf.MergedMessage

/-!
# Round trips

The code of a schema with fewer fields decodes what was encoded to the fields
that it knows, in every message of the message.
-/

namespace TinyCPlus.Protobuf

namespace Slot

variable {M M' : Type}

def map (g : M → M') : Slot M → Slot M'
  | absent => absent
  | number has value => number has value
  | numbers values => numbers values
  | text has value => text has value
  | texts values => texts values
  | child value => child (value.map g)
  | children values => children (values.map g)

/-- The messages in a slot. -/
def members : Slot M → List M
  | child value => value.toList
  | children values => values
  | absent | number _ _ | numbers _ | text _ _ | texts _ => []

end Slot

/-! ## Fewer fields -/

def Field.restrictSlot {T : Type} (f : Field T) (restrict : T → Message → Message)
    (slot : Slot Message) : Slot Message :=
  match f.type with
  | .message t => slot.map (restrict t)
  | .number _ | .string | .bytes => slot

/-- The message without the fields that are not in the schema. -/
def Schema.restrict {T : Type} (S : Schema T) : ℕ → T → Message → Message
  | 0, _, m => m
  | n + 1, t, m => .mk fun number ↦
      match S.field t number with
      | some f => f.restrictSlot (restrict S n) (m.slot number)
      | none => .absent

/-- A property of all slots of a message and of the messages in it. -/
inductive Schema.Throughout {T : Type} (S : Schema T) (P : Field T → Slot Message → Prop) :
    T → Message → Prop where
  | intro {t : T} {m : Message} (hslots : ∀ f ∈ S.fields t, P f (m.slot f.number))
      (hmembers : ∀ f ∈ S.fields t, ∀ t', f.type = .message t' →
        ∀ c ∈ (m.slot f.number).members, S.Throughout P t' c) : S.Throughout P t m

namespace Schema.Throughout

variable {T : Type} {S : Schema T} {P : Field T → Slot Message → Prop} {t : T} {m : Message}

theorem slots (h : S.Throughout P t m) : ∀ f ∈ S.fields t, P f (m.slot f.number) := by
  cases h
  assumption

theorem members (h : S.Throughout P t m) : ∀ f ∈ S.fields t, ∀ t', f.type = .message t' →
    ∀ c ∈ (m.slot f.number).members, S.Throughout P t' c := by
  cases h
  assumption

/-- A new object, if the property holds of new slots. -/
theorem initial (hnew : ∀ f : Field T, P f f.initial) (t : T) :
    S.Throughout P t (S.initial t) := by
  have hslot (f : Field T) (hf : f ∈ S.fields t) : (S.initial t).slot f.number = f.initial := by
    rw [Schema.initial, Message.slot_mk, field_of_mem hf]
  refine .intro (fun f hf ↦ ?_) fun f hf t' htype c hc ↦ ?_
  · rw [hslot f hf]
    exact hnew f
  · rw [hslot f hf, Field.initial, htype] at hc
    dsimp only at hc
    split at hc <;> cases hc

theorem set (h : S.Throughout P t m) {f : Field T} (hf : f ∈ S.fields t) {slot : Slot Message}
    (hslot : P f slot)
    (hmembers : ∀ t', f.type = .message t' → ∀ c ∈ slot.members, S.Throughout P t' c) :
    S.Throughout P t (m.set f.number slot) := by
  have hset (g : Field T) (hg : g ∈ S.fields t) :
      (g = f ∧ (m.set f.number slot).slot g.number = slot) ∨
        (m.set f.number slot).slot g.number = m.slot g.number := by
    rw [Message.slot_set]
    by_cases hnumber : g.number = f.number
    · have hsame : g = f := List.inj_on_of_nodup_map (S.distinct t) hg hf hnumber
      exact .inl ⟨hsame, by rw [hnumber, Function.update_self]⟩
    · exact .inr (Function.update_of_ne hnumber _ _)
  refine .intro (fun g hg ↦ ?_) fun g hg t' htype c hc ↦ ?_
  · rcases hset g hg with ⟨rfl, hnew⟩ | hold
    · rwa [hnew]
    · rw [hold]
      exact h.slots g hg
  · rcases hset g hg with ⟨rfl, hnew⟩ | hold
    · rw [hnew] at hc
      exact hmembers t' htype c hc
    · rw [hold] at hc
      exact h.members g hg t' htype c hc

end Schema.Throughout

theorem Schema.Shape.member {T : Type} {S : Schema T} {text : List Byte → Prop} {n : ℕ} {t t' : T}
    {m c : Message} (h : S.Shape text (n + 1) t m) {f : Field T} (hf : f ∈ S.fields t)
    (htype : f.type = .message t') (hc : c ∈ (m.slot f.number).members) : S.Shape text n t' c := by
  have hslot := h.1 f hf
  generalize m.slot f.number = slot at hslot hc
  cases hslot with
  | child htype' _ hvalue =>
      obtain rfl : _ = t' := FieldType.message.inj (htype'.symm.trans htype)
      exact hvalue c (Option.mem_toList.mp hc)
  | children htype' _ hvalues =>
      obtain rfl : _ = t' := FieldType.message.inj (htype'.symm.trans htype)
      exact hvalues c hc
  | number | numbers | text | texts => cases hc

/-! ## Fields without presence -/

/-- An optional field that is not set has the default value. -/
def Field.DefaultWhenUnset {T : Type} (f : Field T) (slot : Slot Message) : Prop :=
  f.optional = true → slot.has = false → slot.numberValue = 0 ∧ slot.textValue = []

/-- The other number that is equal to zero. -/
def NumberType.negativeZero : NumberType → Option U64
  | double => some 0x8000000000000000
  | float => some 0x80000000
  | int32 | int64 | uint32 | uint64 | sint32 | sint64 | fixed32 | fixed64 | sfixed32 | sfixed64
  | bool | enum => none

/-- A singular field without presence holds negative zero. -/
def Field.NegativeZero {T : Type} (f : Field T) (slot : Slot Message) : Prop :=
  ∃ k, f.type = .number k ∧ f.repeated = false ∧ f.optional = false ∧
    k.negativeZero = some slot.numberValue

theorem Field.initial_numberValue {T : Type} (f : Field T) : f.initial.numberValue = 0 := by
  rw [initial]
  cases f.type <;> dsimp only <;> split <;> rfl

theorem Field.initial_textValue {T : Type} (f : Field T) : f.initial.textValue = [] := by
  rw [initial]
  cases f.type <;> dsimp only <;> split <;> rfl

theorem Field.defaultWhenUnset_initial {T : Type} (f : Field T) : f.DefaultWhenUnset f.initial :=
  fun _ _ ↦ ⟨f.initial_numberValue, f.initial_textValue⟩

theorem Field.not_negativeZero_initial {T : Type} (f : Field T) : ¬ f.NegativeZero f.initial := by
  rintro ⟨k, -, -, -, hneg⟩
  rw [f.initial_numberValue] at hneg
  cases k <;> simp [NumberType.negativeZero] at hneg

theorem NumberType.isZero_of_negativeZero {k : NumberType} {value : U64}
    (h : k.negativeZero = some value) : k.isZero value = true := by
  cases k <;> cases h <;> decide

/-- A value that is equal to zero is the default value, or negative zero. -/
theorem NumberType.isZero_iff {k : NumberType} {value : U64} (hvalue : value.toNat < 2 ^ k.bits) :
    k.isZero value = true ↔ value = 0 ∨ k.negativeZero = some value := by
  have hzero : value = 0 ↔ value.toNat = 0 := BitVec.toNat_inj.symm
  cases k with
  | double =>
      have hneg : (0x8000000000000000 : U64) = value ↔ 2 ^ 63 = value.toNat := BitVec.toNat_inj.symm
      have hlt := value.isLt
      rw [isZero, negativeZero, Option.some_inj, hneg, hzero, beq_iff_eq, ← BitVec.toNat_inj,
        BitVec.toNat_shiftLeft, Nat.shiftLeft_eq]
      simp only [BitVec.ofNat_eq_ofNat, BitVec.toNat_ofNat]
      omega
  | float =>
      have hneg : (0x80000000 : U64) = value ↔ 2 ^ 31 = value.toNat := BitVec.toNat_inj.symm
      simp only [bits] at hvalue
      rw [isZero, negativeZero, Option.some_inj, hneg, hzero, beq_iff_eq, ← BitVec.toNat_inj,
        BitVec.toNat_shiftLeft, Nat.shiftLeft_eq, BitVec.toNat_setWidth]
      simp only [BitVec.ofNat_eq_ofNat, BitVec.toNat_ofNat]
      omega
  | int32 | int64 | uint32 | uint64 | sint32 | sint64 | fixed32 | fixed64 | sfixed32 | sfixed64
  | bool | enum =>
      rw [isZero, negativeZero, beq_iff_eq]
      simp

/-! ## Decoding what was encoded -/

section Decode

variable {T : Type} {S S' : Schema T}

/-- A new slot takes over what was written, if nothing is lost. -/
theorem mergedSlot_initial {f : Field T} {text : List Byte → Prop} {child : T → Message → Prop}
    {initial : T → Message} {merged : T → Message → Message → Message}
    {restrict : T → Message → Message} {slot : Slot Message} (hslot : f.Shaped text child slot)
    (hdefault : f.DefaultWhenUnset slot) (hzero : ¬ f.NegativeZero slot)
    (hmembers : ∀ t, f.type = .message t → ∀ c ∈ slot.members,
      merged t (initial t) c = restrict t c) :
    f.mergedSlot initial merged f.initial slot = f.restrictSlot restrict slot := by
  rw [Field.mergedSlot.eq_def, Field.restrictSlot.eq_def, Field.initial.eq_def]
  cases hslot with
  | @number k has value htype hrepeated hhas hvalue =>
      simp only [htype, hrepeated, Bool.false_eq_true, if_false, Slot.has, Slot.numberValue,
        Bool.false_or]
      cases hopt : f.optional with
      | true =>
          rw [if_pos rfl]
          cases has with
          | true => rfl
          | false =>
              rw [if_neg Bool.false_ne_true, show value = 0 from (hdefault hopt rfl).1]
      | false =>
          rw [hopt] at hhas
          obtain rfl : has = false := Bool.eq_false_of_not_eq_true fun h ↦ absurd (hhas h) (by decide)
          rw [if_neg Bool.false_ne_true]
          split
          · rfl
          · rename_i hsame
            have hzero' : k.isZero value = true := by simpa using hsame
            rcases (NumberType.isZero_iff hvalue).mp hzero' with rfl | hneg
            · rfl
            · exact absurd ⟨k, htype, hrepeated, hopt, hneg⟩ hzero
  | @numbers k values htype hrepeated hvalues =>
      simp only [htype, hrepeated, if_true, Slot.numberValues, List.nil_append]
      split
      · rename_i hnil
        rw [hnil]
      · rfl
  | @text has value htype hrepeated hhas hvalue =>
      rcases htype with htype | htype <;>
      · simp only [htype, hrepeated, Bool.false_eq_true, if_false, Slot.has, Slot.textValue,
          Bool.false_or]
        cases hopt : f.optional with
        | true =>
            rw [if_pos rfl]
            cases has with
            | true => rfl
            | false =>
                rw [if_neg Bool.false_ne_true, show value = [] from (hdefault hopt rfl).2]
        | false =>
            rw [hopt] at hhas
            obtain rfl : has = false := Bool.eq_false_of_not_eq_true fun h ↦ absurd (hhas h) (by decide)
            rw [if_neg Bool.false_ne_true]
            cases value <;> rfl
  | @texts values htype hrepeated hvalues =>
      rcases htype with htype | htype <;>
      · simp only [htype, hrepeated, if_true, Slot.textValues, List.nil_append]
        split
        · rename_i hnil
          rw [hnil]
        · rfl
  | @child t value htype hrepeated hvalue =>
      simp only [htype, hrepeated, Bool.false_eq_true, if_false, Slot.childValue, Slot.map]
      cases value with
      | none => rfl
      | some c => exact congrArg (fun c ↦ Slot.child (some c)) (hmembers t htype c List.mem_cons_self)
  | @children t values htype hrepeated hvalues =>
      simp only [htype, hrepeated, if_true, Slot.childValues, Slot.map, List.nil_append]
      have hsame : ∀ c ∈ values, merged t (initial t) c = restrict t c := hmembers t htype
      rw [List.map_congr_left hsame]
      split
      · rename_i hnil
        rw [hnil]
        rfl
      · rfl

/-- A new message takes over the fields that the schema has. -/
theorem merged_initial (hpart : S.IsPart S') {text : List Byte → Prop} {n : ℕ} {t : T}
    {m : Message} (hm : S'.Shape text n t m)
    (hdefault : S'.Throughout Field.DefaultWhenUnset t m)
    (hzero : S'.Throughout (fun f slot ↦ ¬ f.NegativeZero slot) t m) :
    S.merged n t (S.initial t) m = S.restrict n t m := by
  induction n generalizing t m with
  | zero => exact hm.elim
  | succ n ih =>
      refine Message.ext fun number ↦ ?_
      rw [Schema.merged, Schema.restrict, Schema.initial]
      simp only [Message.slot_mk]
      cases hfield : S.field t number with
      | none => rfl
      | some f =>
          obtain ⟨hf, rfl⟩ := Schema.field_eq_some hfield
          have hf' := (hpart t).subset hf
          refine mergedSlot_initial (hm.1 f hf') (hdefault.slots f hf') (hzero.slots f hf') ?_
          intro t' htype c hc
          refine ih (hm.member hf' htype hc) (hdefault.members f hf' t' htype c hc)
            (hzero.members f hf' t' htype c hc)

/-- What was encoded is decoded to the fields that the schema has; the encoding
is at most as long as the limit. -/
theorem Schema.decode_encode (hpart : S.IsPart S') {t : T} {m : Message} (hm : S'.Valid 65 t m)
    (hlength : (S'.wireBytes 65 t m).length ≤ limit)
    (hdefault : S'.Throughout Field.DefaultWhenUnset t m)
    (hzero : S'.Throughout (fun f slot ↦ ¬ f.NegativeZero slot) t m) :
    S'.encode t m 0 = (S'.wireBytes 65 t m, 0) ∧
      S.decode t (S'.wireBytes 65 t m) = (S.restrict 65 t m, 0) := by
  refine ⟨?_, ?_⟩
  · exact (encodeLevels_eq hm).trans (if_pos hlength)
  · rw [← merged_initial hpart hm hdefault hzero]
    exact mergeLevels_wireBytes hpart hm (S.initial t) hlength

/-- A child without its second field. -/
theorem decode_encode_child :
    let S' := WireProto.schema
    let S := S'.keep fun _ f ↦ f.number != 2
    let child := (S'.initial .child).set 1 (.text false [0x61])
    let m := (S'.initial .wire).set 19 (.child (some child))
    S'.encode .wire m 0 = (S'.wireBytes 65 .wire m, 0) ∧
      S.decode .wire (S'.wireBytes 65 .wire m) = (S.restrict 65 .wire m, 0) := by
  intro S' S child m
  have hname : WireProto.one .string 1 ∈ S'.fields .child := by decide
  have hchild : WireProto.one (.message .child) 19 ∈ S'.fields .wire := by decide
  refine Schema.decode_encode (S'.keep_isPart _) ?_ (by decide +kernel) ?_ ?_
  · refine Schema.Shape.set (S := S') (f := WireProto.one (.message .child) 19)
      (Schema.Shape.initial (by rfl) 64 WireProto.wire) hchild (.child rfl rfl fun c hc ↦ ?_)
    obtain rfl := Option.some.inj hc
    exact Schema.Shape.set (S := S') (f := WireProto.one .string 1)
      (Schema.Shape.initial (by rfl) 63 WireProto.child) hname
      (.text (.inl rfl) rfl (by simp) fun _ ↦ by decide)
  · refine Schema.Throughout.set (S := S') (f := WireProto.one (.message .child) 19)
      (.initial Field.defaultWhenUnset_initial WireProto.wire) hchild
      (fun h ↦ by cases h) fun t htype c hc ↦ ?_
    obtain rfl := FieldType.message.inj htype
    rw [List.mem_singleton.mp hc]
    exact Schema.Throughout.set (S := S') (f := WireProto.one .string 1)
      (.initial Field.defaultWhenUnset_initial WireProto.child) hname
      (fun h ↦ by cases h) fun t htype ↦ by cases htype
  · refine Schema.Throughout.set (S := S') (f := WireProto.one (.message .child) 19)
      (.initial Field.not_negativeZero_initial WireProto.wire) hchild
      (fun ⟨k, htype, _⟩ ↦ by cases htype) fun t htype c hc ↦ ?_
    obtain rfl := FieldType.message.inj htype
    rw [List.mem_singleton.mp hc]
    exact Schema.Throughout.set (S := S') (f := WireProto.one .string 1)
      (.initial Field.not_negativeZero_initial WireProto.child) hname
      (fun ⟨k, htype, _⟩ ↦ by cases htype) fun t htype ↦ by cases htype

end Decode

end TinyCPlus.Protobuf
