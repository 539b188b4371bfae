import TinyCPlus.Protobuf.Wire

/-!
# Proto3 schemas and messages (`tiny-protoc.py`)

A schema gives the fields of every message type `T`.  A map is a repeated field
whose type is the message type of its entries.
-/

namespace TinyCPlus.Protobuf

/-- The scalar types of `SCALARS` that are numbers, and enums. -/
inductive NumberType where
  | double | float
  | int32 | int64 | uint32 | uint64
  | sint32 | sint64 | fixed32 | fixed64
  | sfixed32 | sfixed64 | bool
  | enum
deriving DecidableEq, Repr

namespace NumberType

/-- The wire type. -/
def wire : NumberType → ℕ
  | double | fixed64 | sfixed64 => 1
  | float | fixed32 | sfixed32 => 5
  | int32 | int64 | uint32 | uint64 | sint32 | sint64 | bool | enum => 0

/-- The bits of a value in memory: all 64 of them, the low 32, or one. -/
def bits : NumberType → ℕ
  | double | int64 | uint64 | sint64 | fixed64 | sfixed64 => 64
  | float | int32 | uint32 | sint32 | fixed32 | sfixed32 | enum => 32
  | bool => 1

/-- A value that is equal to zero in its type: of a floating-point number only
the sign may be set. -/
def isZero : NumberType → U64 → Bool
  | double, value => value <<< 1 == 0
  | float, value => value.setWidth 32 <<< 1 == 0
  | int32, value | int64, value | uint32, value | uint64, value | sint32, value
  | sint64, value | fixed32, value | fixed64, value | sfixed32, value | sfixed64, value
  | bool, value | enum, value => value == 0

/-- The argument of the write call for a value, in `write_value`: an `int` is
extended with its sign. -/
def toWire : NumberType → U64 → U64
  | int32, value | sfixed32, value | enum, value => (value.setWidth 32).signExtend 64
  | sint32, value => zigzag ((value.setWidth 32).signExtend 64)
  | sint64, value => zigzag value
  | double, value | float, value | int64, value | uint32, value | uint64, value
  | fixed32, value | fixed64, value | sfixed64, value | bool, value => value

/-- The value for the result of the read call, in `read_number`. -/
def ofWire : NumberType → U64 → U64
  | int32, x | sfixed32, x | enum, x | uint32, x | fixed32, x | float, x =>
      (x.setWidth 32).setWidth 64
  | sint32, x => ((unzigzag x).setWidth 32).setWidth 64
  | sint64, x => unzigzag x
  | bool, x => if x = 0 then 0 else 1
  | double, x | int64, x | uint64, x | fixed64, x | sfixed64, x => x

end NumberType

inductive FieldType (T : Type) where
  | number (k : NumberType)
  | string
  | bytes
  | message (t : T)
deriving DecidableEq

/-- The wire type of `info`. -/
def FieldType.wire {T : Type} : FieldType T → ℕ
  | number k => k.wire
  | string | bytes | message _ => 2

/-- Strings must be UTF-8. -/
def FieldType.isString {T : Type} : FieldType T → Bool
  | string => true
  | number _ | bytes | message _ => false

structure Field (T : Type) where
  type : FieldType T
  number : ℕ
  repeated : Bool
  optional : Bool
  packed : Bool
deriving DecidableEq

/-- The schemas that the parser accepts. -/
structure Schema (T : Type) where
  fields : T → List (Field T)
  number_pos : ∀ t, ∀ f ∈ fields t, 1 ≤ f.number
  number_le : ∀ t, ∀ f ∈ fields t, f.number ≤ 536870911
  reserved : ∀ t, ∀ f ∈ fields t, ¬ (19000 ≤ f.number ∧ f.number ≤ 19999)
  distinct : ∀ t, ((fields t).map Field.number).Nodup
  label : ∀ t, ∀ f ∈ fields t, f.repeated = true → f.optional = false

/-- The schema with fewer fields. -/
def Schema.IsPart {T : Type} (S S' : Schema T) : Prop :=
  ∀ t, (S.fields t).Sublist (S'.fields t)

/-- The schema with the fields that a test accepts. -/
def Schema.keep {T : Type} (S : Schema T) (p : T → Field T → Bool) : Schema T where
  fields t := (S.fields t).filter (p t)
  number_pos t f hf := S.number_pos t f (List.mem_of_mem_filter hf)
  number_le t f hf := S.number_le t f (List.mem_of_mem_filter hf)
  reserved t f hf := S.reserved t f (List.mem_of_mem_filter hf)
  distinct t := (S.distinct t).sublist (List.filter_sublist.map Field.number)
  label t f hf := S.label t f (List.mem_of_mem_filter hf)

theorem Schema.keep_isPart {T : Type} (S : Schema T) (p : T → Field T → Bool) :
    (S.keep p).IsPart S :=
  fun _ ↦ List.filter_sublist

/-- The first field with a number. -/
def Schema.field {T : Type} (S : Schema T) (t : T) (number : ℕ) : Option (Field T) :=
  (S.fields t).find? fun f ↦ number == f.number

/-! ## The schema of the tests -/

/-- The message types of `wire.proto`. -/
inductive WireProto where
  | wire | child | nested | entriesEntry
deriving DecidableEq

namespace WireProto

/-- A singular field. -/
def one (type : FieldType WireProto) (number : ℕ) : Field WireProto :=
  ⟨type, number, false, false, true⟩

/-- A repeated field. -/
def many (type : FieldType WireProto) (number : ℕ) (packed : Bool) : Field WireProto :=
  ⟨type, number, true, false, packed⟩

def fields : WireProto → List (Field WireProto)
  | wire =>
      [one (.number .double) 1, one (.number .float) 2, one (.number .int32) 3,
        one (.number .int64) 4, one (.number .uint32) 5, one (.number .uint64) 6,
        one (.number .sint32) 7, one (.number .sint64) 8, one (.number .fixed32) 9,
        one (.number .fixed64) 10, one (.number .sfixed32) 11, one (.number .sfixed64) 12,
        one (.number .bool) 13, one .string 14, one .bytes 15, one (.number .enum) 16,
        many (.number .sint64) 17 true, many (.number .float) 18 false,
        one (.message child) 19, many (.message child) 20 true,
        ⟨.number .int32, 21, false, true, true⟩, many (.message entriesEntry) 22 true,
        many (.message wire) 23 true, one (.message nested) 24]
  | child => [one .string 1, one (.number .int32) 2]
  | nested => [one .string 1]
  | entriesEntry => [one .string 1, one (.number .int64) 2]

/-- `wire.proto` -/
def schema : Schema WireProto where
  fields := fields
  number_pos t := by cases t <;> decide
  number_le t := by cases t <;> decide
  reserved t := by cases t <;> decide
  distinct t := by cases t <;> decide
  label t := by cases t <;> decide

end WireProto

/-! ## Messages -/

/-- What a message of the messages `M` stores for a field; `has` is the flag of
an optional field. -/
inductive Slot (M : Type) where
  | absent
  | number (has : Bool) (value : U64)
  | numbers (values : List U64)
  | text (has : Bool) (value : List Byte)
  | texts (values : List (List Byte))
  | child (value : Option M)
  | children (values : List M)

/-- A message has a slot for every field number. -/
inductive Message where
  | mk (slot : ℕ → Slot Message)

namespace Slot

variable {M : Type}

def has : Slot M → Bool
  | number has _ | text has _ => has
  | absent | numbers _ | texts _ | child _ | children _ => false

def numberValue : Slot M → U64
  | number _ value => value
  | absent | numbers _ | text _ _ | texts _ | child _ | children _ => 0

def numberValues : Slot M → List U64
  | numbers values => values
  | absent | number _ _ | text _ _ | texts _ | child _ | children _ => []

def textValue : Slot M → List Byte
  | text _ value => value
  | absent | number _ _ | numbers _ | texts _ | child _ | children _ => []

def textValues : Slot M → List (List Byte)
  | texts values => values
  | absent | number _ _ | numbers _ | text _ _ | child _ | children _ => []

def childValue : Slot M → Option M
  | child value => value
  | absent | number _ _ | numbers _ | text _ _ | texts _ | children _ => none

def childValues : Slot M → List M
  | children values => values
  | absent | number _ _ | numbers _ | text _ _ | texts _ | child _ => []

end Slot

namespace Message

def slot : Message → ℕ → Slot Message
  | mk slot => slot

def set (m : Message) (number : ℕ) (value : Slot Message) : Message :=
  mk (Function.update m.slot number value)

@[simp] theorem slot_mk (s : ℕ → Slot Message) : (mk s).slot = s := rfl

@[simp] theorem slot_set (m : Message) (number : ℕ) (value : Slot Message) :
    (m.set number value).slot = Function.update m.slot number value := rfl

theorem ext {m m' : Message} (h : ∀ number, m.slot number = m'.slot number) : m = m' := by
  obtain ⟨s⟩ := m
  obtain ⟨s'⟩ := m'
  exact congrArg mk (funext h)

end Message

/-- The slot of a field in a new object. -/
def Field.initial {T : Type} (f : Field T) : Slot Message :=
  match f.type with
  | .number _ => if f.repeated then .numbers [] else .number false 0
  | .string | .bytes => if f.repeated then .texts [] else .text false []
  | .message _ => if f.repeated then .children [] else .child none

/-- A new object. -/
def Schema.initial {T : Type} (S : Schema T) (t : T) : Message :=
  .mk fun number ↦
    match S.field t number with
    | some f => f.initial
    | none => .absent

/-! ## UTF-8 -/

/-- The loop over the bytes that continue a character. -/
def continuation : ℕ → ℕ → List Byte → Option (ℕ × List Byte)
  | 0, value, s => some (value, s)
  | n + 1, value, byte :: s =>
      if byte &&& 0xc0 ≠ 0x80 then none
      else continuation n (value <<< 6 ||| (byte &&& 63).toNat) s
  | _ + 1, _, [] => none

/-- The loop of `tc_pb_valid_utf8`. -/
def validUtf8Loop : ℕ → List Byte → Bool
  | 0, s => s == []
  | _ + 1, [] => true
  | fuel + 1, byte :: s =>
      if byte < 128 then validUtf8Loop fuel s
      else
        let lead : Option (ℕ × ℕ) :=
          if 0xc2 ≤ byte ∧ byte ≤ 0xdf then some (1, (byte &&& 31).toNat)
          else if 0xe0 ≤ byte ∧ byte ≤ 0xef then some (2, (byte &&& 15).toNat)
          else if 0xf0 ≤ byte ∧ byte ≤ 0xf4 then some (3, (byte &&& 7).toNat)
          else none
        match lead with
        | none => false
        | some (count, value) =>
            match continuation count value s with
            | none => false
            | some (value, s) =>
                if (count = 2 ∧ value < 2048) ∨ (count = 3 ∧ value < 65536) ∨ 0x10ffff < value ∨
                    (0xd800 ≤ value ∧ value ≤ 0xdfff) then false
                else validUtf8Loop fuel s

/-- `tc_pb_valid_utf8` -/
def validUtf8 (text : List Byte) : Bool := validUtf8Loop text.length text

example : validUtf8 [0xc3, 0xa1, 0x41] = true ∧ validUtf8 [0xc0, 0xaf] = false := by decide

end TinyCPlus.Protobuf
