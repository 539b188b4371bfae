import TinyCPlus.Library.Blocks
import TinyCPlus.Protobuf.Message

/-!
# The generated methods in memory

The class that is generated for a message type with the blocks that it allocates: the
copied input, readers and writers with their buffers, the data of arrays and the objects
of singular fields.  A deferred call is made where its scope is left.
-/

namespace TinyCPlus.Protobuf

open TinyCPlus.Library TinyCPlus.Library.Blocks

/-! ## Strings and arrays -/

/-- A string: the block that its bytes are in, unless it is empty from the start. -/
structure TextView where
  block : Option ℕ
  bytes : List Byte

namespace TextView

def null : TextView := ⟨none, []⟩

/-- `String.copy` -/
def copy (bytes : List Byte) : Effect Heap TextView := do
  let block ← alloc
  pure ⟨some block, bytes⟩

/-- `OwnedString.destroy` -/
def destroy (s : TextView) : Effect Heap Unit := freeOpt s.block

end TextView

/-- `Array` -/
structure TcArray (α : Type) where
  data : Option ℕ
  capacity : ℕ
  values : List α

namespace TcArray

variable {α : Type}

def empty : TcArray α := ⟨none, 0, []⟩

def reserve (a : TcArray α) (required : ℕ) : Effect Heap (TcArray α) :=
  if required ≤ a.capacity then pure a
  else do
    let next := max (max (a.capacity * 2) 8) required
    let allocated ← realloc a.data
    pure { a with data := some allocated, capacity := next }

def push (a : TcArray α) (value : α) : Effect Heap (TcArray α) := do
  let a ← a.reserve (a.values.length + 1)
  useOpt a.data
  pure { a with values := a.values ++ [value] }

def destroy (a : TcArray α) : Effect Heap Unit := freeOpt a.data

end TcArray

/-! ## Messages -/

/-- What a message of the messages `M` stores for a field; a singular message is behind
a pointer. -/
inductive TcSlot (M : Type) where
  | absent
  | number (has : Bool) (value : U64)
  | numbers (values : TcArray U64)
  | text (has : Bool) (value : TextView)
  | texts (values : TcArray TextView)
  | child (value : Option (ℕ × M))
  | children (values : TcArray M)

inductive TcMessage where
  | mk (wireStorage : TextView) (slot : ℕ → TcSlot TcMessage)

namespace TcSlot

variable {M : Type}

def has : TcSlot M → Bool
  | number has _ | text has _ => has
  | absent | numbers _ | texts _ | child _ | children _ => false

def numberValue : TcSlot M → U64
  | number _ value => value
  | absent | numbers _ | text _ _ | texts _ | child _ | children _ => 0

def numberArray : TcSlot M → TcArray U64
  | numbers values => values
  | absent | number _ _ | text _ _ | texts _ | child _ | children _ => .empty

def textValue : TcSlot M → TextView
  | text _ value => value
  | absent | number _ _ | numbers _ | texts _ | child _ | children _ => .null

def textArray : TcSlot M → TcArray TextView
  | texts values => values
  | absent | number _ _ | numbers _ | text _ _ | child _ | children _ => .empty

def childValue : TcSlot M → Option (ℕ × M)
  | child value => value
  | absent | number _ _ | numbers _ | text _ _ | texts _ | children _ => none

def childArray : TcSlot M → TcArray M
  | children values => values
  | absent | number _ _ | numbers _ | text _ _ | texts _ | child _ => .empty

end TcSlot

namespace TcMessage

def wireStorage : TcMessage → TextView
  | mk wireStorage _ => wireStorage

def slot : TcMessage → ℕ → TcSlot TcMessage
  | mk _ slot => slot

def set (m : TcMessage) (number : ℕ) (value : TcSlot TcMessage) : TcMessage :=
  mk m.wireStorage (Function.update m.slot number value)

end TcMessage

def Field.fresh {T : Type} (f : Field T) : TcSlot TcMessage :=
  match f.type with
  | .number _ => if f.repeated then .numbers .empty else .number false 0
  | .string | .bytes => if f.repeated then .texts .empty else .text false .null
  | .message _ => if f.repeated then .children .empty else .child none

/-- A new object. -/
def Schema.fresh {T : Type} (S : Schema T) (t : T) : TcMessage :=
  .mk .null fun number ↦
    match S.field t number with
    | some f => f.fresh
    | none => .absent

/-! ## Readers and writers -/

/-- A `ProtoReader`: its block, the block of its input and its state. -/
structure ProtoReader where
  handle : ℕ
  block : Option ℕ
  state : TcPbReader

namespace ProtoReader

def create (input : TextView) : Effect Heap ProtoReader := do
  let handle ← alloc
  pure ⟨handle, input.block, .create input.bytes⟩

/-- A call that reads. -/
def read {α : Type} (r : ProtoReader) (call : TcPbReader → α × TcPbReader) :
    Effect Heap (α × ProtoReader) := do
  use r.handle
  useOpt r.block
  pure ((call r.state).1, { r with state := (call r.state).2 })

def bytes (r : ProtoReader) : Effect Heap (TextView × ProtoReader) := do
  let (bytes, r) ← r.read TcPbReader.readBytes
  pure (⟨r.block, bytes⟩, r)

def skip (r : ProtoReader) (field : ℕ) : Effect Heap ProtoReader := do
  let ((), r) ← r.read fun s ↦ ((), s.skip field)
  pure r

def error (r : ProtoReader) : Effect Heap ℕ := do
  use r.handle
  pure r.state.error

def done (r : ProtoReader) : Effect Heap Bool := do
  use r.handle
  pure r.state.done

def destroy (r : ProtoReader) : Effect Heap Unit := free r.handle

end ProtoReader

/-- A `ProtoWriter`: its block, its buffer and its state. -/
structure ProtoWriter where
  handle : ℕ
  buffer : Option ℕ
  state : TcPbWriter

namespace ProtoWriter

def create : Effect Heap ProtoWriter := do
  let handle ← alloc
  pure ⟨handle, none, .create⟩

/-- The buffer, with room for so many bytes. -/
def room (w : ProtoWriter) (length : ℕ) : Effect Heap (Option ℕ) :=
  if w.state.capacity < length then do
    let data ← realloc w.buffer
    pure (some data)
  else pure w.buffer

/-- `tc_pb_append` -/
def append (w : ProtoWriter) (value : TextView) : Effect Heap ProtoWriter := do
  use w.handle
  if w.state.error ≠ 0 ∨ limit - w.state.data.length < value.bytes.length then
    pure { w with state := w.state.append value.bytes }
  else do
    let buffer ← w.room (w.state.data.length + value.bytes.length)
    if value.bytes ≠ [] then
      useOpt value.block
      useOpt buffer
    pure { w with buffer := buffer, state := w.state.append value.bytes }

/-- `tc_pb_write_varint` -/
def varint (w : ProtoWriter) (value : U64) : Effect Heap ProtoWriter :=
  w.append ⟨none, Protobuf.varint value⟩

/-- `tc_pb_write_fixed` of 4 or 8 bytes. -/
def fixed (w : ProtoWriter) (value : U64) (count : ℕ) : Effect Heap ProtoWriter :=
  w.append ⟨none, fixedBytes count value⟩

/-- `tc_pb_write_bytes` -/
def bytes (w : ProtoWriter) (value : TextView) : Effect Heap ProtoWriter := do
  let w ← w.varint (BitVec.ofNat 64 value.bytes.length)
  w.append value

def tag (w : ProtoWriter) (field wire : ℕ) : Effect Heap ProtoWriter :=
  w.varint (BitVec.ofNat 64 field * 8 + BitVec.ofNat 64 wire)

def error (w : ProtoWriter) : Effect Heap ℕ := do
  use w.handle
  pure w.state.error

/-- `tc_pb_writer_take` -/
def take (w : ProtoWriter) : Effect Heap (TextView × ProtoWriter) := do
  use w.handle
  if w.state.error ≠ 0 then pure (.null, w)
  else do
    let data ← w.buffer.elim alloc pure
    pure (⟨some data, w.state.data⟩, { w with buffer := none, state := w.state.take.2 })

/-- `tc_pb_writer_destroy` -/
def destroy (w : ProtoWriter) : Effect Heap Unit := do
  freeOpt w.buffer
  free w.handle

end ProtoWriter

namespace Memory

/-- A loop that a return with an error leaves. -/
def untilError {α β : Type} (step : β → α → Effect Heap (β × Option ℕ)) :
    List α → β → Effect Heap (β × Option ℕ)
  | [], b => pure (b, none)
  | x :: xs, b => do
      let (b, error) ← step b x
      match error with
      | some e => pure (b, some e)
      | none => untilError step xs b

/-- The error of a return, if there is one. -/
def returned (error : ℕ) : Option ℕ := if error ≠ 0 then some error else none

/-! ## `encode` -/

/-- `write_value` of a number without a tag. -/
def writeNumber (k : NumberType) (w : ProtoWriter) (value : U64) : Effect Heap ProtoWriter :=
  match k.wire with
  | 0 => w.varint (k.toWire value)
  | 1 => w.fixed (k.toWire value) 8
  | _ => w.fixed (k.toWire value) 4

section Encode

variable {T : Type} (encodeChild : T → TcMessage → Effect Heap (TextView × ℕ)) (f : Field T)

/-- `write_value` of a number. -/
def writeTagged (k : NumberType) (w : ProtoWriter) (value : U64) :
    Effect Heap (ProtoWriter × Option ℕ) := do
  let w ← w.tag f.number k.wire
  let w ← writeNumber k w value
  pure (w, none)

/-- `write_value` of a string or bytes. -/
def writeText (w : ProtoWriter) (value : TextView) : Effect Heap (ProtoWriter × Option ℕ) := do
  let w ← w.tag f.number 2
  useOpt value.block
  if f.type.isString = true ∧ validUtf8 value.bytes = false then pure (w, some 3)
  else do
    let w ← w.bytes value
    pure (w, none)

/-- `write_value` of a message. -/
def writeMessage (t : T) (w : ProtoWriter) (value : TcMessage) :
    Effect Heap (ProtoWriter × Option ℕ) := do
  let w ← w.tag f.number 2
  let (encoded, error) ← encodeChild t value
  if error ≠ 0 then do
    encoded.destroy
    pure (w, some error)
  else do
    let w ← w.bytes encoded
    encoded.destroy
    pure (w, none)

/-- The loop over an array. -/
def writeAll {α : Type} (write : ProtoWriter → α → Effect Heap (ProtoWriter × Option ℕ))
    (w : ProtoWriter) (a : TcArray α) : Effect Heap (ProtoWriter × Option ℕ) :=
  untilError (fun w value ↦ do
    useOpt a.data
    write w value) a.values w

/-- The packed values of a field. -/
def writePacked (k : NumberType) (w : ProtoWriter) (a : TcArray U64) :
    Effect Heap (ProtoWriter × Option ℕ) :=
  if a.values.length = 0 then pure (w, none)
  else do
    let packed ← ProtoWriter.create
    let (packed, _) ← writeAll (fun w value ↦ do
      let w ← writeNumber k w value
      pure (w, none)) packed a
    let error ← packed.error
    if error ≠ 0 then do
      packed.destroy
      pure (w, some error)
    else do
      let (bytes, packed) ← packed.take
      let w ← w.tag f.number 2
      let w ← w.bytes bytes
      bytes.destroy
      packed.destroy
      pure (w, none)

/-- What `encode` does for a field. -/
def encodeField (slot : TcSlot TcMessage) (w : ProtoWriter) :
    Effect Heap (ProtoWriter × Option ℕ) :=
  match f.type with
  | .number k =>
      if f.repeated then
        if f.packed then writePacked f k w slot.numberArray
        else writeAll (writeTagged f k) w slot.numberArray
      else if (if f.optional then slot.has else !k.isZero slot.numberValue) then
        writeTagged f k w slot.numberValue
      else pure (w, none)
  | .string | .bytes =>
      if f.repeated then writeAll (writeText f) w slot.textArray
      else if (if f.optional then slot.has else decide (0 < slot.textValue.bytes.length)) then
        writeText f w slot.textValue
      else pure (w, none)
  | .message t =>
      if f.repeated then writeAll (writeMessage encodeChild f t) w slot.childArray
      else
        match slot.childValue with
        | some (object, value) => do
            use object
            writeMessage encodeChild f t w value
        | none => pure (w, none)

end Encode

/-! ## `mergeView` -/

/-- `read_number` -/
def readNumber (k : NumberType) (r : ProtoReader) : Effect Heap (U64 × ProtoReader) :=
  r.read (Protobuf.readNumber k)

/-- The loop over a packed run; every value takes at least one byte. -/
def readPacked (k : NumberType) :
    ℕ → TcArray U64 → ProtoReader → Effect Heap (TcArray U64 × ProtoReader)
  | 0, a, r => pure (a, r)
  | fuel + 1, a, r => do
      let done ← r.done
      if done then pure (a, r)
      else do
        let (value, r) ← readNumber k r
        let a ← a.push value
        readPacked k fuel a r

section Merge

variable {T : Type} (S : Schema T)
  (mergeChild : T → TcMessage → TextView → Effect Heap (TcMessage × ℕ))

/-- A field that is skipped. -/
def skipField (number : ℕ) (m : TcMessage) (r : ProtoReader) :
    Effect Heap (TcMessage × ProtoReader × Option ℕ) := do
  let r ← r.skip number
  pure (m, r, none)

def mergeNumber (f : Field T) (k : NumberType) (m : TcMessage) (r : ProtoReader) :
    Effect Heap (TcMessage × ProtoReader × Option ℕ) :=
  let slot := m.slot f.number
  if f.repeated ∧ r.state.wire = 2 then do
    let (bytes, r) ← r.bytes
    let packed ← ProtoReader.create bytes
    let (values, packed) ← readPacked k (bytes.bytes.length + 1) slot.numberArray packed
    let error ← packed.error
    packed.destroy
    pure (m.set f.number (.numbers values), r, returned error)
  else if r.state.wire ≠ k.wire then skipField f.number m r
  else do
    let (value, r) ← readNumber k r
    if f.repeated then do
      let values ← slot.numberArray.push value
      pure (m.set f.number (.numbers values), r, none)
    else pure (m.set f.number (.number (slot.has || f.optional) value), r, none)

def mergeText (f : Field T) (m : TcMessage) (r : ProtoReader) :
    Effect Heap (TcMessage × ProtoReader × Option ℕ) :=
  let slot := m.slot f.number
  if r.state.wire ≠ 2 then skipField f.number m r
  else do
    let (text, r) ← r.bytes
    useOpt text.block
    if f.type.isString = true ∧ validUtf8 text.bytes = false then pure (m, r, some 3)
    else if f.repeated then do
      let values ← slot.textArray.push text
      pure (m.set f.number (.texts values), r, none)
    else pure (m.set f.number (.text (slot.has || f.optional) text), r, none)

def mergeMessage (f : Field T) (t : T) (m : TcMessage) (r : ProtoReader) :
    Effect Heap (TcMessage × ProtoReader × Option ℕ) :=
  let slot := m.slot f.number
  if r.state.wire ≠ 2 then skipField f.number m r
  else do
    let (bytes, r) ← r.bytes
    if f.repeated then do
      let (child, error) ← mergeChild t (S.fresh t) bytes
      let values ← slot.childArray.push child
      pure (m.set f.number (.children values), r, returned error)
    else do
      let (object, child) ← slot.childValue.elim (do
        let object ← alloc
        pure (object, S.fresh t)) pure
      use object
      let (child, error) ← mergeChild t child bytes
      pure (m.set f.number (.child (some (object, child))), r, returned error)

/-- What `mergeView` does for a record of a field, with the error that it returns. -/
def mergeField (f : Field T) (m : TcMessage) (r : ProtoReader) :
    Effect Heap (TcMessage × ProtoReader × Option ℕ) :=
  match f.type with
  | .number k => mergeNumber f k m r
  | .string | .bytes => mergeText f m r
  | .message t => mergeMessage S mergeChild f t m r

/-- A record of any field. -/
def mergeRecord (t : T) (number : ℕ) (m : TcMessage) (r : ProtoReader) :
    Effect Heap (TcMessage × ProtoReader × Option ℕ) :=
  match S.field t number with
  | some f => mergeField S mergeChild f m r
  | none => skipField number m r

/-- The loop over the records; every record takes at least one byte. -/
def mergeLoop (t : T) : ℕ → TcMessage → ProtoReader → Effect Heap (TcMessage × ProtoReader × ℕ)
  | 0, m, r => do
      let error ← r.error
      pure (m, r, error)
  | fuel + 1, m, r => do
      let done ← r.done
      if done then do
        let error ← r.error
        pure (m, r, error)
      else do
        let (number, r) ← r.read TcPbReader.next
        if number = 0 then do
          let error ← r.error
          pure (m, r, error)
        else do
          let (m, r, error) ← mergeRecord S mergeChild t number m r
          match error with
          | some e => pure (m, r, e)
          | none => mergeLoop t fuel m r

end Merge

section Destroy

variable {T : Type} (destroyChild : T → TcMessage → Effect Heap Unit)

/-- What `destroy` does for a field. -/
def destroyField (f : Field T) (slot : TcSlot TcMessage) : Effect Heap Unit :=
  match f.type with
  | .number _ => if f.repeated then slot.numberArray.destroy else pure ()
  | .string | .bytes => if f.repeated then slot.textArray.destroy else pure ()
  | .message t =>
      if f.repeated then do
        slot.childArray.values.forM fun child ↦ do
          useOpt slot.childArray.data
          destroyChild t child
        slot.childArray.destroy
      else
        match slot.childValue with
        | some (object, child) => do
            use object
            destroyChild t child
            free object
        | none => pure ()

end Destroy

end Memory

namespace Schema

variable {T : Type} (S : Schema T)

/-- `mergeView` with the levels that are left. -/
def mergeInto : ℕ → T → TcMessage → TextView → Effect Heap (TcMessage × ℕ)
  | 0, _, m, _ => pure (m, 3)
  | n + 1, t, m, input => do
      let r ← ProtoReader.create input
      let (m, r, error) ← Memory.mergeLoop S (mergeInto n) t (input.bytes.length + 1) m r
      r.destroy
      pure (m, error)

/-- `decode` -/
def decodeOwned (t : T) (input : List Byte) : Effect Heap (TcMessage × ℕ) := do
  let storage ← TextView.copy input
  let (m, error) ← S.mergeInto (levels 0) t (S.fresh t) storage
  pure (.mk storage m.slot, error)

/-- `encode` with the levels that are left: the string and the error. -/
def encodeOwned : ℕ → T → TcMessage → Effect Heap (TextView × ℕ)
  | 0, _, _ => pure (.null, 3)
  | n + 1, t, m => do
      let w ← ProtoWriter.create
      let (w, error) ← Memory.untilError
        (fun w f ↦ Memory.encodeField (encodeOwned n) f (m.slot f.number) w) (S.fields t) w
      match error with
      | some e => do
          w.destroy
          pure (.null, e)
      | none => do
          let (bytes, w) ← w.take
          let error ← w.error
          w.destroy
          pure (bytes, error)

/-- `destroy` of a message with at most so many levels. -/
def destroyOwned : ℕ → T → TcMessage → Effect Heap Unit
  | 0, _, _ => failure
  | n + 1, t, m => do
      (S.fields t).forM fun f ↦ Memory.destroyField (destroyOwned n) f (m.slot f.number)
      m.wireStorage.destroy

end Schema

end TinyCPlus.Protobuf
