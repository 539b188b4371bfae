import TinyCPlus.Std.Map

/-!
# `StringBuilder` of `std/string.tc`

A growable byte buffer that keeps a terminating NUL behind its text.  The
buffer is a list of bytes, `none` where `realloc` left a byte indeterminate,
and `u64` arithmetic wraps.  A write outside the buffer, or outside one of the
local digit arrays, is an error of the model.
-/

namespace TinyCPlus.Std

inductive BuilderFailure where
  | assertion
  | allocation
  | outside
  | nontermination
deriving DecidableEq, Repr

structure StringBuilder where
  data : List (Option UInt8)
  length : ℕ
  capacity : ℕ
deriving DecidableEq, Repr

namespace StringBuilder

def create : StringBuilder := ⟨[], 0, 0⟩

/-- What `realloc` leaves in the bytes of the new block. -/
def reallocated (data : List (Option UInt8)) (next : ℕ) : List (Option UInt8) :=
  data.take next ++ List.replicate (next - data.length) none

/-- `realloc` says which sizes the allocator can give. -/
def reserve (realloc : ℕ → Bool) (b : StringBuilder) (extra : ℕ) :
    Except BuilderFailure StringBuilder :=
  if extra < 18446744073709551615 - b.length then
    let required := u64 (u64 (b.length + extra) + 1)
    if required ≤ b.capacity then .ok b
    else
      let next := u64 (b.capacity * 2)
      let next := if next < 64 then 64 else next
      let next := if next < required then required else next
      if realloc next then
        .ok { b with data := reallocated b.data next, capacity := next }
      else .error .allocation
  else .error .assertion

/-- `data[index] = value;` -/
def store (b : StringBuilder) (index : ℕ) (value : UInt8) :
    Except BuilderFailure StringBuilder :=
  if index < b.data.length then .ok { b with data := b.data.set index (some value) }
  else .error .outside

/-- `data[length] = value; length++;` -/
def push (b : StringBuilder) (value : UInt8) : Except BuilderFailure StringBuilder := do
  let b ← b.store b.length value
  .ok { b with length := u64 (b.length + 1) }

/-- `data[length] = '\0';` -/
def terminate (b : StringBuilder) : Except BuilderFailure StringBuilder :=
  b.store b.length 0

/-- `tc_bytes_copy(&data[length], text)` -/
def bytesCopy (b : StringBuilder) (text : List UInt8) :
    Except BuilderFailure StringBuilder :=
  if b.length + text.length ≤ b.data.length then
    .ok { b with
      data := b.data.take b.length ++ text.map some ++ b.data.drop (b.length + text.length) }
  else .error .outside

def append (realloc : ℕ → Bool) (b : StringBuilder) (text : List UInt8) :
    Except BuilderFailure StringBuilder :=
  if text.length = 0 then .ok b
  else do
    let b ← b.reserve realloc text.length
    let b ← b.bytesCopy text
    terminate { b with length := u64 (b.length + text.length) }

def appendChar (realloc : ℕ → Bool) (b : StringBuilder) (value : UInt8) :
    Except BuilderFailure StringBuilder := do
  let b ← b.reserve realloc 1
  let b ← b.push value
  b.terminate

/-- The loop that fills a local digit array, least digit first.  A turn fills
one cell, so one turn more than there are cells is enough. -/
def digitsLoop (base : ℕ) (digit : ℕ → UInt8) :
    ℕ → ℕ → List UInt8 → ℕ → Except BuilderFailure (List UInt8 × ℕ)
  | 0, _, _, _ => .error .nontermination
  | turns + 1, value, digits, count =>
      if count < digits.length then
        let digits := digits.set count (digit (value % base))
        if value / base = 0 then .ok (digits, count + 1)
        else digitsLoop base digit turns (value / base) digits (count + 1)
      else .error .outside

/-- The loop that copies the digits behind the text, the last one first. -/
def copyLoop (digits : List UInt8) : ℕ → StringBuilder → Except BuilderFailure StringBuilder
  | 0, b => .ok b
  | count + 1, b =>
      match digits[count]? with
      | none => .error .outside
      | some digit => do
          let b ← b.push digit
          copyLoop digits count b

/-- What `appendUnsigned` and `appendHex` share. -/
def appendDigits (base size : ℕ) (digit : ℕ → UInt8) (realloc : ℕ → Bool)
    (b : StringBuilder) (value : UInt64) : Except BuilderFailure StringBuilder := do
  let (digits, count) ←
    digitsLoop base digit (size + 1) value.toNat (List.replicate size 0) 0
  let b ← b.reserve realloc count
  let b ← copyLoop digits count b
  b.terminate

def appendUnsigned : (ℕ → Bool) → StringBuilder → UInt64 →
    Except BuilderFailure StringBuilder :=
  appendDigits 10 20 fun digit ↦ UInt8.ofNat (48 + digit)

def appendInt (realloc : ℕ → Bool) (b : StringBuilder) (value : Int64) :
    Except BuilderFailure StringBuilder :=
  if value < 0 then do
    let b ← b.appendChar realloc 45
    b.appendUnsigned realloc (0 - value.toUInt64)
  else b.appendUnsigned realloc value.toUInt64

def appendHex : (ℕ → Bool) → StringBuilder → UInt64 →
    Except BuilderFailure StringBuilder :=
  appendDigits 16 16 fun nibble ↦
    if nibble < 10 then UInt8.ofNat (48 + nibble) else UInt8.ofNat (87 + nibble)

def view (b : StringBuilder) : List (Option UInt8) :=
  if b.length = 0 then [] else b.data.take b.length

def clear (b : StringBuilder) : Except BuilderFailure StringBuilder :=
  let b := { b with length := 0 }
  if 0 < b.capacity then b.store 0 0 else .ok b

end StringBuilder

/-! ## Runs -/

inductive BuilderOp where
  | append (text : List UInt8)
  | appendChar (value : UInt8)
  | appendUnsigned (value : UInt64)
  | appendInt (value : Int64)
  | appendHex (value : UInt64)
  | reserve (extra : UInt64)
  | clear
deriving DecidableEq

namespace StringBuilder

/-- One call of a method. -/
def apply (realloc : ℕ → Bool) (b : StringBuilder) :
    BuilderOp → Except BuilderFailure StringBuilder
  | .append text => b.append realloc text
  | .appendChar value => b.appendChar realloc value
  | .appendUnsigned value => b.appendUnsigned realloc value
  | .appendInt value => b.appendInt realloc value
  | .appendHex value => b.appendHex realloc value
  | .reserve extra => b.reserve realloc extra.toNat
  | .clear => b.clear

/-- A sequence of calls. -/
def run (realloc : ℕ → Bool) (b : StringBuilder) (ops : List BuilderOp) :
    Except BuilderFailure StringBuilder :=
  ops.foldlM (apply realloc) b

end StringBuilder

/-! ## What the calls spell -/

/-- The bytes of an ASCII text. -/
def ascii (text : List Char) : List UInt8 := text.map fun c ↦ UInt8.ofNat c.toNat

namespace BuilderOp

/-- The text a call appends. -/
def spelling : BuilderOp → List UInt8
  | .append text => text
  | .appendChar value => [value]
  | .appendUnsigned value => ascii (Nat.toDigits 10 value.toNat)
  | .appendInt value => ascii (toString value.toInt).toList
  | .appendHex value => ascii (Nat.toDigits 16 value.toNat)
  | .reserve _ | .clear => []

/-- What a call makes of the text so far. -/
def update (text : List UInt8) : BuilderOp → List UInt8
  | .clear => []
  | op => text ++ op.spelling

/-- What was appended since the last `clear`. -/
def spelled (ops : List BuilderOp) : List UInt8 := ops.foldl update []

end BuilderOp

end TinyCPlus.Std
