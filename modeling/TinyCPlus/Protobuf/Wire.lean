import Mathlib

/-!
# The protobuf wire format (`protobuf.c`)

Writers own a growing buffer; readers borrow their input.  A reader is given by
the input from its position on.  Memory is never exhausted.
-/

namespace TinyCPlus.Protobuf

abbrev Byte := BitVec 8

abbrev U64 := BitVec 64

/-- `TC_PB_LIMIT` -/
def limit : ℕ := 64 * 1024 * 1024

/-! ## Writers -/

structure TcPbWriter where
  data : List Byte
  capacity : ℕ
  error : ℕ
deriving DecidableEq, Repr

namespace TcPbWriter

/-- `tc_pb_writer` -/
def create : TcPbWriter := ⟨[], 0, 0⟩

/-- Doubles the capacity until the data fits; every turn adds at least one. -/
def growCapacity : ℕ → ℕ → ℕ → ℕ
  | 0, capacity, _ => capacity
  | fuel + 1, capacity, length =>
      if capacity < length then growCapacity fuel (capacity * 2) length else capacity

/-- `tc_pb_append` -/
def append (w : TcPbWriter) (data : List Byte) : TcPbWriter :=
  if w.error ≠ 0 then w
  else if limit - w.data.length < data.length then { w with error := 8 }
  else
    let length := w.data.length + data.length
    let capacity :=
      if w.capacity < length then
        growCapacity length (if w.capacity ≠ 0 then w.capacity else 128) length
      else w.capacity
    { w with data := w.data ++ data, capacity := capacity }

end TcPbWriter

/-- The bytes of `tc_pb_write_varint`: at most `n` with a mark, then the last. -/
def varintBytes : ℕ → U64 → List Byte
  | 0, value => [value.setWidth 8]
  | n + 1, value =>
      if 127 < value then
        ((value &&& 127) ||| 128).setWidth 8 :: varintBytes n (value >>> 7)
      else [value.setWidth 8]

/-- The bytes of a varint; the array has room for ten. -/
def varint (value : U64) : List Byte := varintBytes 9 value

/-- The bytes of `tc_pb_write_fixed`. -/
def fixedBytes : ℕ → U64 → List Byte
  | 0, _ => []
  | n + 1, value => value.setWidth 8 :: fixedBytes n (value >>> 8)

namespace TcPbWriter

/-- `tc_pb_write_varint` -/
def writeVarint (w : TcPbWriter) (value : U64) : TcPbWriter := w.append (varint value)

/-- `tc_pb_write_fixed` -/
def writeFixed (w : TcPbWriter) (value : U64) (count : ℕ) : TcPbWriter :=
  if count ≠ 4 ∧ count ≠ 8 then { w with error := 3 } else w.append (fixedBytes count value)

/-- `tc_pb_write_bytes` -/
def writeBytes (w : TcPbWriter) (bytes : List Byte) : TcPbWriter :=
  (w.writeVarint (BitVec.ofNat 64 bytes.length)).append bytes

/-- `ProtoWriter.tag` -/
def tag (w : TcPbWriter) (field wire : ℕ) : TcPbWriter :=
  w.writeVarint (BitVec.ofNat 64 field * 8 + BitVec.ofNat 64 wire)

/-- `tc_pb_writer_take`: the bytes, or nothing after an error. -/
def take (w : TcPbWriter) : Option (List Byte) × TcPbWriter :=
  if w.error ≠ 0 then (none, w) else (some w.data, { w with data := [], capacity := 0 })

end TcPbWriter

/-! ## Readers -/

structure TcPbReader where
  rest : List Byte
  wire : ℕ
  error : ℕ
deriving DecidableEq, Repr

/-- The loop of `tc_pb_read_varint` with `n` turns left. -/
def varintLoop : ℕ → U64 → List Byte → Option U64 × List Byte
  | 0, _, s => (none, s)
  | _ + 1, _, [] => (none, [])
  | n + 1, value, byte :: s =>
      if 9 - n = 9 ∧ 1 < byte then (none, s)
      else
        let value := value ||| (byte &&& 127).setWidth 64 <<< (7 * (9 - n))
        if byte &&& 128 = 0 then (some value, s) else varintLoop n value s

/-- The loop of `tc_pb_read_fixed` from byte `i` on. -/
def fixedLoop : ℕ → ℕ → U64 → List Byte → U64 × List Byte
  | n + 1, i, value, byte :: s =>
      fixedLoop n (i + 1) (value ||| byte.setWidth 64 <<< (8 * i)) s
  | _, _, value, s => (value, s)

namespace TcPbReader

/-- `tc_pb_reader` -/
def create (input : List Byte) : TcPbReader := ⟨input, 0, if limit < input.length then 3 else 0⟩

/-- `tc_pb_reader_fail` -/
def fail (r : TcPbReader) : TcPbReader := { r with error := 3 }

/-- `tc_pb_reader_done` -/
def done (r : TcPbReader) : Bool := r.error != 0 || r.rest == []

/-- `tc_pb_read_varint` -/
def readVarint (r : TcPbReader) : U64 × TcPbReader :=
  if r.error ≠ 0 then (0, r)
  else
    match varintLoop 10 0 r.rest with
    | (some value, s) => (value, { r with rest := s })
    | (none, s) => (0, { r with rest := s, error := 3 })

/-- `tc_pb_read_fixed` -/
def readFixed (r : TcPbReader) (count : ℕ) : U64 × TcPbReader :=
  if r.error ≠ 0 then (0, r)
  else if (count ≠ 4 ∧ count ≠ 8) ∨ r.rest.length < count then (0, r.fail)
  else
    let (value, s) := fixedLoop count 0 0 r.rest
    (value, { r with rest := s })

/-- `tc_pb_read_bytes` -/
def readBytes (r : TcPbReader) : List Byte × TcPbReader :=
  let (length, r) := r.readVarint
  if r.error ≠ 0 ∨ r.rest.length < length.toNat then ([], r.fail)
  else (r.rest.take length.toNat, { r with rest := r.rest.drop length.toNat })

/-- `tc_pb_next` -/
def next (r : TcPbReader) : ℕ × TcPbReader :=
  if r.done then (0, r)
  else
    let (tag, r) := r.readVarint
    let r := { r with wire := (tag &&& 7).toNat }
    if r.error ≠ 0 ∨ tag >>> 3 = 0 ∨ 536870911 < tag >>> 3 ∨ 5 < r.wire then (0, r.fail)
    else ((tag >>> 3).toNat, r)

/-- `tc_pb_skip_depth`, with the loop over the records of a group. -/
def skipDepth (group : TcPbReader → ℕ → ℕ → TcPbReader) (r : TcPbReader) (field depth : ℕ) :
    TcPbReader :=
  if 64 < depth then r.fail
  else
    match r.wire with
    | 0 => r.readVarint.2
    | 1 => (r.readFixed 8).2
    | 2 => r.readBytes.2
    | 5 => (r.readFixed 4).2
    | 3 => group r field depth
    | _ => r.fail

/-- The loop over the records of a group; every record takes at least one byte. -/
def skipGroup : ℕ → TcPbReader → ℕ → ℕ → TcPbReader
  | 0, r, _, _ => r.fail
  | fuel + 1, r, field, depth =>
      if r.done then r.fail
      else
        let (next, r) := r.next
        if r.wire = 4 then if field ≠ next then r.fail else r
        else skipGroup fuel (skipDepth (skipGroup fuel) r next (depth + 1)) field depth

/-- `tc_pb_skip` -/
def skip (r : TcPbReader) (field : ℕ) : TcPbReader :=
  skipDepth (skipGroup (r.rest.length + 1)) r field 0

end TcPbReader

/-! ## Zigzag -/

/-- `tc_pb_zigzag` -/
def zigzag (n : BitVec 64) : U64 := n <<< 1 ^^^ -(if n.slt 0 then 1 else 0)

/-- `tc_pb_unzigzag` -/
def unzigzag (n : U64) : BitVec 64 := n >>> 1 ^^^ -(n &&& 1)

example : varint 300 = [0xac, 0x02] := by decide

end TinyCPlus.Protobuf
