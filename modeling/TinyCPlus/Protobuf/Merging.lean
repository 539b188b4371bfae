import TinyCPlus.Protobuf.Concatenation
import TinyCPlus.Protobuf.Encoding

/-!
# Merging what was written

The generated code of a schema is given what the code of a schema with more
fields wrote.  It merges the fields that it knows and skips the others.
-/

namespace TinyCPlus.Protobuf

open TcPbReader

/-! ## Numbers -/

theorem setWidth_of_lt {value : U64} (h : value.toNat < 2 ^ 32) :
    (value.setWidth 32).setWidth 64 = value := by
  apply BitVec.eq_of_toNat_eq
  rw [BitVec.toNat_setWidth, BitVec.toNat_setWidth]
  omega

theorem setWidth_signExtend (x : BitVec 32) : (x.signExtend 64).setWidth 32 = x := by
  refine BitVec.eq_of_getLsbD_eq fun i hi ↦ ?_
  have hi' : i < 64 := by omega
  rw [BitVec.getLsbD_setWidth, BitVec.getLsbD_signExtend]
  simp [hi, hi']

namespace NumberType

theorem wire_cases (k : NumberType) : k.wire = 0 ∨ k.wire = 1 ∨ k.wire = 5 := by
  cases k <;> simp [wire]

/-- A value that fits its type is read back from a varint or 64 bits. -/
theorem ofWire_toWire {k : NumberType} {value : U64} (hwire : k.wire ≠ 5)
    (hvalue : value.toNat < 2 ^ k.bits) : k.ofWire (k.toWire value) = value := by
  cases k with
  | double | int64 | uint64 | fixed64 | sfixed64 => rfl
  | float | fixed32 | sfixed32 => exact absurd rfl hwire
  | uint32 => exact setWidth_of_lt hvalue
  | int32 | enum =>
      rw [toWire, ofWire, setWidth_signExtend]
      exact setWidth_of_lt hvalue
  | sint32 =>
      rw [toWire, ofWire, unzigzag_zigzag, setWidth_signExtend]
      exact setWidth_of_lt hvalue
  | sint64 => exact unzigzag_zigzag value
  | bool =>
      rw [toWire, ofWire]
      split
      · rename_i hzero
        exact hzero.symm
      · rename_i hone
        have hne : value.toNat ≠ 0 := fun h ↦ hone (BitVec.eq_of_toNat_eq h)
        apply BitVec.eq_of_toNat_eq
        simp only [bits] at hvalue
        simp
        omega

/-- A value that fits its type is read back from 32 bits. -/
theorem ofWire_low {k : NumberType} {value : U64} (hwire : k.wire = 5)
    (hvalue : value.toNat < 2 ^ k.bits) :
    k.ofWire (((k.toWire value).setWidth 32).setWidth 64) = value := by
  cases k with
  | float | fixed32 =>
      rw [toWire, ofWire, setWidth_of_lt hvalue]
      exact setWidth_of_lt hvalue
  | sfixed32 =>
      rw [toWire, ofWire, setWidth_signExtend, setWidth_of_lt hvalue]
      exact setWidth_of_lt hvalue
  | double | int32 | int64 | uint32 | uint64 | sint32 | sint64 | fixed64 | sfixed64 | bool
  | enum => cases hwire

end NumberType

theorem readNumber_numberCall {k : NumberType} {value : U64}
    (hvalue : value.toNat < 2 ^ k.bits) (s : List Byte) (w : ℕ) :
    readNumber k ⟨(numberCall k value).encoding ++ s, w, 0⟩ = (value, ⟨s, w, 0⟩) := by
  rcases k.wire_cases with hwire | hwire | hwire
  · have hback := NumberType.ofWire_toWire (by omega) hvalue
    simp only [readNumber, numberCall, hwire, Call.encoding, readVarint_varint, hback]
  · have hback := NumberType.ofWire_toWire (by omega) hvalue
    simp only [readNumber, numberCall, hwire, Call.encoding, readFixed_fixedBytes (Or.inr rfl)]
    simp [hback]
  · have hback := NumberType.ofWire_low hwire hvalue
    simp only [readNumber, numberCall, hwire, Call.encoding, readFixed_fixedBytes (Or.inl rfl)]
    exact congrArg (·, _) hback

theorem varint_ne_nil (value : U64) : varint value ≠ [] := by
  rw [varint, varintBytes]
  split <;> exact List.cons_ne_nil _ _

theorem numberCall_ne_nil (k : NumberType) (value : U64) : (numberCall k value).encoding ≠ [] := by
  rcases k.wire_cases with hwire | hwire | hwire
  · simp only [numberCall, hwire, Call.encoding]
    exact varint_ne_nil _
  · simp only [numberCall, hwire, Call.encoding, fixedBytes]
    exact List.cons_ne_nil _ _
  · simp only [numberCall, hwire, Call.encoding, fixedBytes]
    exact List.cons_ne_nil _ _

/-- A packed run is read back, by induction on the values. -/
theorem readPacked_encoding {k : NumberType} {values : List U64} {fuel : ℕ}
    (hvalues : ∀ value ∈ values, value.toNat < 2 ^ k.bits)
    (hfuel : (encoding (values.map (numberCall k))).length < fuel) :
    readPacked k fuel ⟨encoding (values.map (numberCall k)), 0, 0⟩ = (values, ⟨[], 0, 0⟩) := by
  induction values generalizing fuel with
  | nil =>
      obtain ⟨fuel, rfl⟩ : ∃ n, fuel = n + 1 := ⟨fuel - 1, by omega⟩
      rfl
  | cons value values ih =>
      obtain ⟨fuel, rfl⟩ : ∃ n, fuel = n + 1 := ⟨fuel - 1, by omega⟩
      rw [List.map_cons, encoding_cons] at hfuel ⊢
      have hne := numberCall_ne_nil k value
      have hpos := List.length_pos_of_ne_nil hne
      have hdone : ¬ done ⟨(numberCall k value).encoding ++ encoding (values.map (numberCall k)),
          0, 0⟩ = true := by
        simp [done, hne]
      rw [List.length_append] at hfuel
      rw [readPacked, if_neg hdone, readNumber_numberCall (hvalues value List.mem_cons_self)]
      dsimp only
      rw [ih (fun v hv ↦ hvalues v (List.mem_cons_of_mem value hv)) (by omega)]

/-! ## Skipping -/

theorem skip_number (k : NumberType) (value : U64) (field : ℕ) :
    skip ⟨(numberCall k value).encoding, k.wire, 0⟩ field = ⟨[], k.wire, 0⟩ := by
  rw [skip, skipDepth, if_neg (Nat.not_lt_zero 64), ← List.append_nil (numberCall k value).encoding]
  rcases k.wire_cases with hwire | hwire | hwire
  · simp only [numberCall, hwire, Call.encoding, readVarint_varint]
  · simp only [numberCall, hwire, Call.encoding, readFixed_fixedBytes (Or.inr rfl)]
  · simp only [numberCall, hwire, Call.encoding, readFixed_fixedBytes (Or.inl rfl)]

theorem readBytes_call {value : List Byte} (hlength : value.length ≤ limit) (w : ℕ) :
    readBytes ⟨(Call.bytes value).encoding, w, 0⟩ = (value, ⟨[], w, 0⟩) := by
  have hlt : value.length < 2 ^ 64 := by
    simp only [limit] at hlength
    omega
  have hread := readBytes_bytes hlt [] w
  rwa [List.append_nil] at hread

theorem skip_bytes {value : List Byte} (hlength : value.length ≤ limit) (field : ℕ) :
    skip ⟨(Call.bytes value).encoding, 2, 0⟩ field = ⟨[], 2, 0⟩ := by
  rw [skip, skipDepth, if_neg (Nat.not_lt_zero 64)]
  exact congrArg Prod.snd (readBytes_call hlength 2)

/-! ## Merged messages -/

/-- A field of the schema gets a value; another one does not. -/
def Schema.put {T : Type} (S : Schema T) (t : T) (m : Message) (number : ℕ)
    (slot : Slot Message) : Message :=
  match S.field t number with
  | some _ => m.set number slot
  | none => m

/-- What the slot `new` adds to the slot `old` of a field. -/
def Field.mergedSlot {T : Type} (f : Field T) (initial : T → Message)
    (merged : T → Message → Message → Message) (old new : Slot Message) : Slot Message :=
  match f.type with
  | .number k =>
      if f.repeated then
        if new.numberValues = [] then old
        else .numbers (old.numberValues ++ new.numberValues)
      else if (if f.optional then new.has else !k.isZero new.numberValue) then
        .number (old.has || f.optional) new.numberValue
      else old
  | .string | .bytes =>
      if f.repeated then
        if new.textValues = [] then old else .texts (old.textValues ++ new.textValues)
      else if (if f.optional then new.has else decide (0 < new.textValue.length)) then
        .text (old.has || f.optional) new.textValue
      else old
  | .message t =>
      if f.repeated then
        if new.childValues = [] then old
        else .children (old.childValues ++ new.childValues.map (merged t (initial t)))
      else
        match new.childValue with
        | some c => .child (some (merged t (old.childValue.getD (initial t)) c))
        | none => old

/-- The message `old` with what the fields of the schema in `new` add to it. -/
def Schema.merged {T : Type} (S : Schema T) : ℕ → T → Message → Message → Message
  | 0, _, old, _ => old
  | n + 1, t, old, new => .mk fun number ↦
      match S.field t number with
      | some f => f.mergedSlot S.initial (merged S n) (old.slot number) (new.slot number)
      | none => old.slot number

section Put

variable {T : Type} {S : Schema T} {t : T}

theorem put_of_none {number : ℕ} (h : S.field t number = none) (m : Message)
    (slot : Slot Message) : S.put t m number slot = m := by
  rw [Schema.put, h]

theorem put_of_some {number : ℕ} {f : Field T} (h : S.field t number = some f) (m : Message)
    (slot : Slot Message) : S.put t m number slot = m.set number slot := by
  rw [Schema.put, h]

theorem put_self (m : Message) (number : ℕ) : S.put t m number (m.slot number) = m := by
  rw [Schema.put]
  split
  · exact Message.ext fun i ↦ congrFun (Function.update_eq_self number m.slot) i
  · rfl

/-- Values that are put into one slot, one after the other. -/
theorem foldl_put {α : Type} {number : ℕ} (g : Slot Message → α → Slot Message) (xs : List α)
    (m : Message) :
    xs.foldl (fun m x ↦ S.put t m number (g (m.slot number) x)) m =
      S.put t m number (xs.foldl g (m.slot number)) := by
  induction xs generalizing m with
  | nil => exact (put_self m number).symm
  | cons x xs ih =>
      rw [List.foldl_cons, ih, List.foldl_cons]
      cases hfield : S.field t number with
      | none => rw [put_of_none hfield, put_of_none hfield, put_of_none hfield]
      | some f =>
          refine Message.ext fun i ↦ ?_
          simp [put_of_some hfield]

/-- A list that grows at its end. -/
theorem foldl_snoc {α β : Type} {make : List α → β} {get : β → List α}
    (hget : ∀ l, get (make l) = l) (xs : List α) (s : β) :
    xs.foldl (fun s x ↦ make (get s ++ [x])) s = if xs = [] then s else make (get s ++ xs) := by
  induction xs generalizing s with
  | nil => rfl
  | cons x xs ih =>
      rw [List.foldl_cons, ih, hget, if_neg (List.cons_ne_nil x xs)]
      split
      · rename_i hnil
        rw [hnil]
      · rw [List.append_assoc, List.singleton_append]

theorem foldl_snoc_map {α β γ : Type} {make : List α → β} {get : β → List α}
    (hget : ∀ l, get (make l) = l) (g : γ → α) (xs : List γ) (s : β) :
    xs.foldl (fun s x ↦ make (get s ++ [g x])) s =
      if xs = [] then s else make (get s ++ xs.map g) := by
  have hsnoc := foldl_snoc hget (xs.map g) s
  simpa only [List.foldl_map, List.map_eq_nil_iff] using hsnoc

end Put

end TinyCPlus.Protobuf
