import TinyCPlus.Protobuf.Schema

/-!
# The generated methods (`Generator.message`)

`encode`, `mergeView`, `decodeView` and `decode` of the class that is generated
for a message type.  The depth is counted by the levels that are left.
-/

namespace TinyCPlus.Protobuf

/-- The levels of messages below a depth, which may be at most 64. -/
def levels (depth : ℤ) : ℕ := (65 - depth).toNat

/-! ## Encoding -/

/-- `write_value` of a number without a tag. -/
def writeNumber (k : NumberType) (w : TcPbWriter) (value : U64) : TcPbWriter :=
  match k.wire with
  | 0 => w.writeVarint (k.toWire value)
  | 1 => w.writeFixed (k.toWire value) 8
  | _ => w.writeFixed (k.toWire value) 4

section Encode

variable {T : Type} (encodeChild : T → Message → List Byte × ℕ) (f : Field T)

/-- `write_value` of a string or bytes. -/
def writeText (w : TcPbWriter) (value : List Byte) : Except ℕ TcPbWriter :=
  let w := w.tag f.number 2
  if f.type.isString = true ∧ validUtf8 value = false then .error 3 else .ok (w.writeBytes value)

/-- `write_value` of a message. -/
def writeMessage (t : T) (w : TcPbWriter) (value : Message) : Except ℕ TcPbWriter :=
  let w := w.tag f.number 2
  let (encoded, error) := encodeChild t value
  if error ≠ 0 then .error error else .ok (w.writeBytes encoded)

/-- The packed values of a field. -/
def writePacked (k : NumberType) (w : TcPbWriter) (values : List U64) : Except ℕ TcPbWriter :=
  if values.length = 0 then .ok w
  else
    let packed := values.foldl (writeNumber k) TcPbWriter.create
    if packed.error ≠ 0 then .error packed.error
    else .ok ((w.tag f.number 2).writeBytes (packed.take.1.getD []))

/-- What `encode` does for a field. -/
def encodeField (slot : Slot Message) (w : TcPbWriter) : Except ℕ TcPbWriter :=
  match f.type with
  | .number k =>
      if f.repeated then
        if f.packed then writePacked f k w slot.numberValues
        else .ok (slot.numberValues.foldl
          (fun w value ↦ writeNumber k (w.tag f.number k.wire) value) w)
      else if (if f.optional then slot.has else !k.isZero slot.numberValue) then
        .ok (writeNumber k (w.tag f.number k.wire) slot.numberValue)
      else .ok w
  | .string | .bytes =>
      if f.repeated then slot.textValues.foldlM (writeText f) w
      else if (if f.optional then slot.has else decide (0 < slot.textValue.length)) then
        writeText f w slot.textValue
      else .ok w
  | .message t =>
      if f.repeated then slot.childValues.foldlM (writeMessage encodeChild f t) w
      else
        match slot.childValue with
        | some value => writeMessage encodeChild f t w value
        | none => .ok w

end Encode

/-! ## Decoding -/

/-- `read_number` -/
def readNumber (k : NumberType) (r : TcPbReader) : U64 × TcPbReader :=
  let (x, r) :=
    match k.wire with
    | 0 => r.readVarint
    | 1 => r.readFixed 8
    | _ => r.readFixed 4
  (k.ofWire x, r)

/-- The loop over a packed run; every value takes at least one byte. -/
def readPacked (k : NumberType) : ℕ → TcPbReader → List U64 × TcPbReader
  | 0, r => ([], r)
  | fuel + 1, r =>
      if r.done then ([], r)
      else
        let (value, r) := readNumber k r
        let (values, r) := readPacked k fuel r
        (value :: values, r)

section Merge

variable {T : Type} (S : Schema T) (mergeChild : T → Message → List Byte → Message × ℕ)

/-- What `mergeView` does for a record of a field; it goes on with a reader or
returns an error. -/
def mergeField (f : Field T) (m : Message) (r : TcPbReader) : Message × Except ℕ TcPbReader :=
  let slot := m.slot f.number
  match f.type with
  | .number k =>
      if f.repeated ∧ r.wire = 2 then
        let (bytes, r) := r.readBytes
        let (values, packed) := readPacked k (bytes.length + 1) (TcPbReader.create bytes)
        let m := m.set f.number (.numbers (slot.numberValues ++ values))
        if packed.error ≠ 0 then (m, .error packed.error) else (m, .ok r)
      else if r.wire ≠ k.wire then (m, .ok (r.skip f.number))
      else
        let (value, r) := readNumber k r
        if f.repeated then (m.set f.number (.numbers (slot.numberValues ++ [value])), .ok r)
        else (m.set f.number (.number (slot.has || f.optional) value), .ok r)
  | .string | .bytes =>
      if r.wire ≠ 2 then (m, .ok (r.skip f.number))
      else
        let (text, r) := r.readBytes
        if f.type.isString = true ∧ validUtf8 text = false then (m, .error 3)
        else if f.repeated then (m.set f.number (.texts (slot.textValues ++ [text])), .ok r)
        else (m.set f.number (.text (slot.has || f.optional) text), .ok r)
  | .message t =>
      if r.wire ≠ 2 then (m, .ok (r.skip f.number))
      else
        let (bytes, r) := r.readBytes
        if f.repeated then
          let (child, error) := mergeChild t (S.initial t) bytes
          let m := m.set f.number (.children (slot.childValues ++ [child]))
          if error ≠ 0 then (m, .error error) else (m, .ok r)
        else
          let (child, error) := mergeChild t (slot.childValue.getD (S.initial t)) bytes
          let m := m.set f.number (.child (some child))
          if error ≠ 0 then (m, .error error) else (m, .ok r)

/-- A record of any field. -/
def mergeRecord (t : T) (number : ℕ) (m : Message) (r : TcPbReader) :
    Message × Except ℕ TcPbReader :=
  match S.field t number with
  | some f => mergeField S mergeChild f m r
  | none => (m, .ok (r.skip number))

/-- The loop over the records; every record takes at least one byte. -/
def mergeLoop (t : T) : ℕ → Message → TcPbReader → Message × ℕ
  | 0, m, r => (m, r.error)
  | fuel + 1, m, r =>
      if r.done then (m, r.error)
      else
        let (number, r) := r.next
        if number = 0 then (m, r.error)
        else
          match mergeRecord S mergeChild t number m r with
          | (m, .ok r) => mergeLoop t fuel m r
          | (m, .error error) => (m, error)

end Merge

namespace Schema

variable {T : Type} (S : Schema T)

def mergeLevels : ℕ → T → Message → List Byte → Message × ℕ
  | 0, _, m, _ => (m, 3)
  | n + 1, t, m, input =>
      mergeLoop S (mergeLevels n) t (input.length + 1) m (TcPbReader.create input)

/-- `mergeView` -/
def mergeView (t : T) (m : Message) (input : List Byte) (depth : ℤ) : Message × ℕ :=
  S.mergeLevels (levels depth) t m input

/-- `decodeView` -/
def decodeView (t : T) (input : List Byte) (depth : ℤ) : Message × ℕ :=
  S.mergeView t (S.initial t) input depth

/-- `decode` -/
def decode (t : T) (input : List Byte) : Message × ℕ := S.decodeView t input 0

def encodeLevels : ℕ → T → Message → List Byte × ℕ
  | 0, _, _ => ([], 3)
  | n + 1, t, m =>
      match (S.fields t).foldlM
        (fun w f ↦ encodeField (encodeLevels n) f (m.slot f.number) w) TcPbWriter.create with
      | .error error => ([], error)
      | .ok w => (w.take.1.getD [], w.take.2.error)

/-- `encode`: the bytes and the error. -/
def encode (t : T) (m : Message) (depth : ℤ) : List Byte × ℕ :=
  S.encodeLevels (levels depth) t m

end Schema

end TinyCPlus.Protobuf
