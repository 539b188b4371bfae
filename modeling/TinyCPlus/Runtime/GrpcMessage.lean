import TinyCPlus.Runtime.GapBuffer

/-!
# Messages of `runtime/grpc.c`

A message travels as a zero byte, its length in four bytes and the message itself.  The
peer's chunks are collected in a buffer, and what is sent is handed over to the session
piece by piece.  Allocation succeeds, and what `realloc` leaves unspecified is zero.
-/

namespace TinyCPlus.Runtime

/-- `TC_GRPC_LIMIT`, 4 MiB. -/
def grpcLimit : ℕ := 4 * 1024 * 1024

structure TcGrpcBuffer where
  data : List UInt8
  length : ℕ
  capacity : ℕ
deriving DecidableEq, Repr

/-- `while (capacity < need) capacity *= 2;`.  The capacity is positive, so `need` turns
are enough (`le_growCapacity`). -/
def growCapacity (need : ℕ) : ℕ → ℕ → ℕ
  | 0, capacity => capacity
  | fuel + 1, capacity =>
      if capacity < need then growCapacity need fuel (capacity * 2) else capacity

/-- The four bytes of a length, the highest first. -/
def lengthBytes (size : ℕ) : List UInt8 :=
  [UInt8.ofNat (size >>> 24), UInt8.ofNat (size >>> 16), UInt8.ofNat (size >>> 8),
    UInt8.ofNat size]

namespace TcGrpcBuffer

def empty : TcGrpcBuffer := ⟨[], 0, 0⟩

/-- The bytes collected so far. -/
def contents (b : TcGrpcBuffer) : List UInt8 := bytesAt b.data 0 b.length

def reserve (b : TcGrpcBuffer) (need : ℕ) : TcGrpcBuffer :=
  let capacity := growCapacity need need (if b.capacity ≠ 0 then b.capacity else 256)
  { b with data := b.data ++ List.replicate (capacity - b.capacity) 0, capacity := capacity }

/-- `tc_grpc_buffer_add` -/
def add (b : TcGrpcBuffer) (data : List UInt8) : TcGrpcBuffer × ℤ :=
  if grpcLimit + 5 - b.length < data.length then (b, -1)
  else
    let b := if b.capacity < b.length + data.length then b.reserve (b.length + data.length) else b
    ({ b with
        data := if data.length ≠ 0 then memcpy b.data b.length data else b.data
        length := b.length + data.length }, 0)

/-- `tc_grpc_pack` -/
def pack (b : TcGrpcBuffer) (data : List UInt8) : TcGrpcBuffer × ℤ :=
  if grpcLimit < data.length then (b, -1)
  else
    let header := b.add (0 :: lengthBytes data.length)
    if header.2 ≠ 0 then (header.1, 1)
    else
      let body := header.1.add data
      (body.1, if body.2 ≠ 0 then 1 else 0)

/-- The length that the bytes 1 to 4 of a buffer spell. -/
def unpackSize (b : TcGrpcBuffer) : ℕ :=
  (b.data.getD 1 0).toNat <<< 24 ||| (b.data.getD 2 0).toNat <<< 16 |||
    (b.data.getD 3 0).toNat <<< 8 ||| (b.data.getD 4 0).toNat

/-- `tc_grpc_unpack`: the status, and the message if it is zero. -/
def unpack (b : TcGrpcBuffer) : ℤ × List UInt8 :=
  if b.length < 5 then (13, [])
  else if b.data.getD 0 0 ≠ 0 then (12, [])
  else if grpcLimit < b.unpackSize ∨ b.length ≠ b.unpackSize + 5 then (13, [])
  else (0, bytesAt b.data 5 b.unpackSize)

/-- The chunks of a message, one after the other; the flag tells that all were taken. -/
def addAll (b : TcGrpcBuffer) : List (List UInt8) → TcGrpcBuffer × Bool
  | [] => (b, true)
  | chunk :: rest =>
      if (b.add chunk).2 = 0 then (b.add chunk).1.addAll rest else ((b.add chunk).1, false)

end TcGrpcBuffer

/-! ## Handing over -/

/-- The fields of a stream that `tc_grpc_read_data` uses. -/
structure GrpcOutgoing where
  outgoing : TcGrpcBuffer
  sent : ℕ
  status : ℤ

/-- What one call of `tc_grpc_read_data` does: the bytes it copies, the flags it sets, the
trailers it submits and what it returns. -/
structure ReadCall where
  bytes : List UInt8
  eof : Bool
  noEndStream : Bool
  trailers : List ℤ
  value : ℤ
deriving DecidableEq, Repr

/-- `tc_grpc_read_data`; `refused` tells that `nghttp2_submit_trailer` fails. -/
def readData (server : Bool) (s : GrpcOutgoing) (capacity : ℕ) (refused : Bool) :
    GrpcOutgoing × ReadCall :=
  let n := s.outgoing.length - s.sent
  let n := if capacity < n then capacity else n
  let bytes := if n ≠ 0 then bytesAt s.outgoing.data s.sent n else []
  let s := { s with sent := s.sent + n }
  if s.sent = s.outgoing.length then
    if server then
      (s, ⟨bytes, true, true, [s.status], if refused then -521 else n⟩)
    else (s, ⟨bytes, true, false, [], n⟩)
  else (s, ⟨bytes, false, false, [], n⟩)

/-- The calls that the session makes with the given capacities.  It makes none behind the
one that has set the end of data. -/
def readAll (server : Bool) (s : GrpcOutgoing) : List (ℕ × Bool) → List ReadCall
  | [] => []
  | (capacity, refused) :: rest =>
      let call := readData server s capacity refused
      call.2 :: if call.2.eof then [] else readAll server call.1 rest

/-! ## Lengths -/

/-- The number that four bytes spell, the highest first. -/
def bigEndian (a b c d : UInt8) : ℕ :=
  a.toNat * 2 ^ 24 + b.toNat * 2 ^ 16 + c.toNat * 2 ^ 8 + d.toNat

theorem shift_or_eq_bigEndian (a b c d : UInt8) :
    a.toNat <<< 24 ||| b.toNat <<< 16 ||| c.toNat <<< 8 ||| d.toNat = bigEndian a b c d := by
  have hb := b.toNat_lt
  have hc := c.toNat_lt
  have hd := d.toNat_lt
  have hlow : c.toNat <<< 8 ||| d.toNat = c.toNat * 2 ^ 8 + d.toNat := by
    rw [← Nat.shiftLeft_add_eq_or_of_lt (by omega), Nat.shiftLeft_eq]
  have hmiddle : b.toNat <<< 16 ||| (c.toNat * 2 ^ 8 + d.toNat) =
      b.toNat * 2 ^ 16 + (c.toNat * 2 ^ 8 + d.toNat) := by
    rw [← Nat.shiftLeft_add_eq_or_of_lt (by omega), Nat.shiftLeft_eq]
  have hhigh : a.toNat <<< 24 ||| (b.toNat * 2 ^ 16 + (c.toNat * 2 ^ 8 + d.toNat)) =
      a.toNat * 2 ^ 24 + (b.toNat * 2 ^ 16 + (c.toNat * 2 ^ 8 + d.toNat)) := by
    rw [← Nat.shiftLeft_add_eq_or_of_lt (by omega), Nat.shiftLeft_eq]
  rw [Nat.or_assoc, Nat.or_assoc, hlow, hmiddle, hhigh, bigEndian]
  omega

theorem bigEndian_lengthBytes {size : ℕ} (h : size < 2 ^ 32) :
    bigEndian (UInt8.ofNat (size >>> 24)) (UInt8.ofNat (size >>> 16)) (UInt8.ofNat (size >>> 8))
      (UInt8.ofNat size) = size := by
  simp only [bigEndian, UInt8.toNat_ofNat', Nat.shiftRight_eq_div_pow]
  omega

theorem le_growCapacity {need fuel capacity : ℕ} (hpos : 0 < capacity)
    (hfuel : need ≤ capacity + fuel) : need ≤ growCapacity need fuel capacity := by
  induction fuel generalizing capacity with
  | zero => exact hfuel
  | succ fuel ih =>
      rw [growCapacity]
      split
      · exact ih (by omega) (by omega)
      · omega

theorem capacity_le_growCapacity (need fuel capacity : ℕ) :
    capacity ≤ growCapacity need fuel capacity := by
  induction fuel generalizing capacity with
  | zero => exact le_rfl
  | succ fuel ih =>
      rw [growCapacity]
      split
      · exact (Nat.le_mul_of_pos_right capacity two_pos).trans (ih _)
      · exact le_rfl

/-! ## Collecting -/

/-- The buffer holds the bytes, and no more than a message of the greatest length needs. -/
structure Collects (b : TcGrpcBuffer) (bytes : List UInt8) : Prop where
  layout : ∃ spare, b.data = bytes ++ spare
  length_eq : b.length = bytes.length
  length_data : b.data.length = b.capacity
  length_le : bytes.length ≤ grpcLimit + 5

namespace Collects

variable {b : TcGrpcBuffer} {bytes : List UInt8}

theorem empty : Collects .empty [] where
  layout := ⟨[], rfl⟩
  length_eq := rfl
  length_data := rfl
  length_le := Nat.zero_le _

theorem contents_eq (h : Collects b bytes) : b.contents = bytes := by
  obtain ⟨spare, hdata⟩ := h.layout
  rw [TcGrpcBuffer.contents, bytesAt, List.drop_zero, hdata, h.length_eq, List.take_left]

theorem reserve (h : Collects b bytes) (need : ℕ) : Collects (b.reserve need) bytes where
  layout := by
    obtain ⟨spare, hdata⟩ := h.layout
    exact ⟨spare ++ _, by rw [TcGrpcBuffer.reserve, hdata, List.append_assoc]⟩
  length_eq := h.length_eq
  length_data := by
    have hle := capacity_le_growCapacity need need (if b.capacity ≠ 0 then b.capacity else 256)
    have hgrow : b.capacity ≤ if b.capacity ≠ 0 then b.capacity else 256 := by
      split <;> omega
    simp only [TcGrpcBuffer.reserve, List.length_append, List.length_replicate, h.length_data]
    omega
  length_le := h.length_le

theorem le_capacity_reserve (b : TcGrpcBuffer) (need : ℕ) : need ≤ (b.reserve need).capacity := by
  refine le_growCapacity ?_ (Nat.le_add_left _ _)
  split <;> omega

/-- Bytes that fit are written behind those collected. -/
theorem write (h : Collects b bytes) {data : List UInt8}
    (hcapacity : bytes.length + data.length ≤ b.capacity)
    (hlimit : bytes.length + data.length ≤ grpcLimit + 5) :
    Collects
      { b with
        data := if data.length ≠ 0 then memcpy b.data b.length data else b.data
        length := b.length + data.length } (bytes ++ data) := by
  obtain ⟨spare, hdata⟩ := h.layout
  have hspare : data.length ≤ spare.length := by
    have hlength := h.length_data
    rw [hdata, List.length_append] at hlength
    omega
  have hwritten : (if data.length ≠ 0 then memcpy b.data b.length data else b.data) =
      bytes ++ data ++ spare.drop data.length := by
    split
    · rw [memcpy, hdata, h.length_eq, List.take_left, List.drop_append]
      simp
    · rename_i hempty
      rw [not_not, List.length_eq_zero_iff] at hempty
      rw [hdata, hempty, List.append_nil, List.length_nil, List.drop_zero]
  refine ⟨⟨_, hwritten⟩, ?_, ?_, ?_⟩
  · rw [List.length_append, h.length_eq]
  · rw [hwritten, ← h.length_data, hdata]
    simp only [List.length_append, List.length_drop]
    omega
  · rwa [List.length_append]

/-- Bytes are refused only if a message of the greatest length would not need them. -/
theorem add (h : Collects b bytes) (data : List UInt8) :
    if bytes.length + data.length ≤ grpcLimit + 5 then
      Collects (b.add data).1 (bytes ++ data) ∧ (b.add data).2 = 0
    else b.add data = (b, -1) := by
  have hlimit := h.length_le
  have hlength := h.length_eq
  rw [TcGrpcBuffer.add]
  split
  · rename_i hfits
    rw [if_neg (by omega)]
    refine ⟨?_, rfl⟩
    by_cases hfull : b.capacity < b.length + data.length
    · have hneed := le_capacity_reserve b (b.length + data.length)
      simp only [if_pos hfull]
      exact (h.reserve (b.length + data.length)).write (by omega) hfits
    · simp only [if_neg hfull]
      exact h.write (by omega) hfits
  · rw [if_pos (by omega)]

theorem add_fits (h : Collects b bytes) (data : List UInt8)
    (hfits : bytes.length + data.length ≤ grpcLimit + 5) :
    Collects (b.add data).1 (bytes ++ data) ∧ (b.add data).2 = 0 := by
  have hadd := h.add data
  rwa [if_pos hfits] at hadd

theorem addAll (h : Collects b bytes) (chunks : List (List UInt8))
    (hfits : bytes.length + chunks.flatten.length ≤ grpcLimit + 5) :
    Collects (b.addAll chunks).1 (bytes ++ chunks.flatten) ∧ (b.addAll chunks).2 = true := by
  induction chunks generalizing b bytes with
  | nil =>
      rw [List.flatten_nil, List.append_nil]
      exact ⟨h, rfl⟩
  | cons chunk rest ih =>
      rw [List.flatten_cons, List.length_append] at hfits
      obtain ⟨hadd, hcode⟩ := h.add_fits chunk (by omega)
      rw [TcGrpcBuffer.addAll, if_pos hcode, List.flatten_cons, ← List.append_assoc]
      exact ih hadd (by rw [List.length_append]; omega)

/-- What was taken of some chunks is all of them. -/
theorem of_addAll (h : Collects b bytes) (chunks : List (List UInt8))
    (htaken : (b.addAll chunks).2 = true) :
    Collects (b.addAll chunks).1 (bytes ++ chunks.flatten) := by
  induction chunks generalizing b bytes with
  | nil =>
      rw [List.flatten_nil, List.append_nil]
      exact h
  | cons chunk rest ih =>
      have hadd := h.add chunk
      rw [TcGrpcBuffer.addAll] at htaken ⊢
      split at hadd
      · rw [if_pos hadd.2] at htaken ⊢
        rw [List.flatten_cons, ← List.append_assoc]
        exact ih hadd.1 htaken
      · rw [if_neg (by simp [hadd])] at htaken
        cases htaken

end Collects

/-! ## Messages -/

/-- The bytes of a message on the wire. -/
def grpcFrame (message : List UInt8) : List UInt8 := 0 :: lengthBytes message.length ++ message

theorem length_grpcFrame (message : List UInt8) :
    (grpcFrame message).length = message.length + 5 := by
  rw [grpcFrame, List.length_append]
  exact Nat.add_comm _ _

namespace Collects

variable {b : TcGrpcBuffer} {bytes : List UInt8}

theorem pack {message : List UInt8} (h : message.length ≤ grpcLimit) :
    Collects (TcGrpcBuffer.empty.pack message).1 (grpcFrame message) ∧
      (TcGrpcBuffer.empty.pack message).2 = 0 := by
  obtain ⟨hheader, hcode⟩ := Collects.empty.add_fits (0 :: lengthBytes message.length)
    (by simp [lengthBytes])
  rw [List.nil_append] at hheader
  obtain ⟨hbody, hcode'⟩ := hheader.add_fits message (by simp [lengthBytes]; omega)
  have hcode0 : ¬ (TcGrpcBuffer.empty.add (0 :: lengthBytes message.length)).2 ≠ 0 :=
    not_not.mpr hcode
  simp only [TcGrpcBuffer.pack, if_neg (not_lt.mpr h), if_neg hcode0]
  exact ⟨hbody, if_neg (not_not.mpr hcode')⟩

/-- A byte of the buffer is a byte collected. -/
theorem getD_eq (h : Collects b bytes) {i : ℕ} (hi : i < bytes.length) :
    b.data.getD i 0 = bytes.getD i 0 := by
  obtain ⟨spare, hdata⟩ := h.layout
  rw [hdata, List.getD_eq_getElem?_getD, List.getD_eq_getElem?_getD,
    List.getElem?_append_left hi]

/-- Unpacking reads the bytes collected. -/
theorem unpack_cons (h : Collects b bytes) {z a1 a2 a3 a4 : UInt8} {message : List UInt8}
    (hbytes : bytes = z :: a1 :: a2 :: a3 :: a4 :: message) :
    b.unpack =
      if z ≠ 0 then (12, [])
      else if grpcLimit < bigEndian a1 a2 a3 a4 ∨ message.length ≠ bigEndian a1 a2 a3 a4 then
        (13, [])
      else (0, message) := by
  have hlength := h.length_eq
  have hcount : bytes.length = message.length + 5 := by rw [hbytes]; rfl
  have hsize : b.unpackSize = bigEndian a1 a2 a3 a4 := by
    rw [TcGrpcBuffer.unpackSize, h.getD_eq (by omega), h.getD_eq (by omega), h.getD_eq (by omega),
      h.getD_eq (by omega), hbytes]
    exact shift_or_eq_bigEndian a1 a2 a3 a4
  have hfirst : b.data.getD 0 0 = z := by
    rw [h.getD_eq (by omega), hbytes]
    rfl
  have hrest : (b.length ≠ bigEndian a1 a2 a3 a4 + 5) ↔
      message.length ≠ bigEndian a1 a2 a3 a4 := by omega
  simp only [TcGrpcBuffer.unpack, if_neg (show ¬ b.length < 5 by omega), hfirst, hsize, hrest]
  split
  · rfl
  · split
    · rfl
    · rename_i hgood
      push Not at hgood
      obtain ⟨spare, hdata⟩ := h.layout
      rw [bytesAt, hdata, hbytes, ← hgood.2]
      simp

/-- Unpacking accepts a zero byte, a length within the limit and as many bytes, and
nothing else. -/
theorem unpack_iff (h : Collects b bytes) :
    b.unpack.1 = 0 ↔ ∃ a1 a2 a3 a4 message,
      bytes = 0 :: a1 :: a2 :: a3 :: a4 :: message ∧
        message.length = bigEndian a1 a2 a3 a4 ∧ message.length ≤ grpcLimit := by
  constructor
  · intro hzero
    match hbytes : bytes with
    | z :: a1 :: a2 :: a3 :: a4 :: message =>
        rw [h.unpack_cons rfl] at hzero
        split at hzero
        · cases hzero
        · rename_i hz
          split at hzero
          · cases hzero
          · rename_i hgood
            push Not at hgood hz
            exact ⟨a1, a2, a3, a4, message, by rw [hz], hgood.2, by omega⟩
    | [] | [_] | [_, _] | [_, _, _] | [_, _, _, _] =>
        have hlength := h.length_eq
        rw [TcGrpcBuffer.unpack, if_pos (by simp at hlength; omega)] at hzero
        cases hzero
  · rintro ⟨a1, a2, a3, a4, message, hbytes, hlength, hlimit⟩
    rw [h.unpack_cons hbytes, if_neg (by simp), if_neg (by omega)]

/-- A packed message is unpacked again. -/
theorem unpack_frame {message : List UInt8} (hlimit : message.length ≤ grpcLimit)
    (h : Collects b (grpcFrame message)) : b.unpack = (0, message) := by
  have hlt : message.length < 2 ^ 32 := hlimit.trans_lt (by decide)
  have hsize := bigEndian_lengthBytes hlt
  have hframe : grpcFrame message = 0 :: UInt8.ofNat (message.length >>> 24) ::
      UInt8.ofNat (message.length >>> 16) :: UInt8.ofNat (message.length >>> 8) ::
      UInt8.ofNat message.length :: message := rfl
  rw [h.unpack_cons hframe, hsize, if_neg (by simp), if_neg (by omega)]

end Collects

/-! ## The data callback -/

theorem Collects.bytesAt_eq {b : TcGrpcBuffer} {bytes : List UInt8} (h : Collects b bytes)
    {sent : ℕ} (hsent : sent ≤ bytes.length) {n : ℕ} (hn : sent + n ≤ bytes.length) :
    bytesAt b.data sent n = (bytes.drop sent).take n := by
  obtain ⟨spare, hdata⟩ := h.layout
  rw [bytesAt, hdata, List.drop_append_of_le_length hsent,
    List.take_append_of_le_length (by rw [List.length_drop]; omega)]

/-- One call copies the next bytes, as many as there is room for, and sets the end of data
if these are the last ones. -/
theorem readData_eq (server : Bool) {s : GrpcOutgoing} {bytes : List UInt8}
    (h : Collects s.outgoing bytes) (hsent : s.sent ≤ bytes.length) (capacity : ℕ)
    (refused : Bool) :
    (readData server s capacity refused).1 =
        { s with sent := min (s.sent + capacity) bytes.length } ∧
      (readData server s capacity refused).2.bytes = (bytes.drop s.sent).take capacity ∧
      (readData server s capacity refused).2.eof = decide (bytes.length ≤ s.sent + capacity) ∧
      (readData server s capacity refused).2.trailers =
        if server = true ∧ bytes.length ≤ s.sent + capacity then [s.status] else [] := by
  have hcount : (if capacity < bytes.length - s.sent then capacity
      else bytes.length - s.sent) = min capacity (bytes.length - s.sent) := by
    split <;> omega
  have hcopied : (if min capacity (bytes.length - s.sent) ≠ 0 then
      bytesAt s.outgoing.data s.sent (min capacity (bytes.length - s.sent)) else []) =
        (bytes.drop s.sent).take capacity := by
    rw [List.take_eq_take_min (i := capacity), List.length_drop]
    split
    · exact h.bytesAt_eq hsent (by omega)
    · rename_i hzero
      rw [not_not.mp hzero, List.take_zero]
  have hnext : s.sent + min capacity (bytes.length - s.sent) =
      min (s.sent + capacity) bytes.length := by omega
  have hend : min (s.sent + capacity) bytes.length = bytes.length ↔
      bytes.length ≤ s.sent + capacity := min_eq_right_iff
  simp only [readData, h.length_eq, hcount, hcopied, hnext, hend]
  by_cases hlast : bytes.length ≤ s.sent + capacity
  · cases server <;> simp [hlast]
  · cases server <;> simp [hlast]

/-- What the calls of a session do: the bytes in order, the end of data in the call that
hands over the last of them and in no other, and a server's trailer in that call. -/
structure HandsOver (server : Bool) (status : ℤ) (bytes : List UInt8)
    (capacities : List ℕ) (calls : List ReadCall) : Prop where
  order : (calls.map (·.bytes)).flatten = bytes.take capacities.sum
  last : ∀ before call after, calls = before ++ call :: after →
    (call.eof = true ↔ ((before ++ [call]).map (·.bytes)).flatten = bytes)
  ends : calls ≠ [] → bytes.length ≤ capacities.sum → ∃ before call,
    calls = before ++ [call] ∧ call.eof = true ∧ ∀ c ∈ before, c.eof = false
  trailer : ∀ call ∈ calls, call.trailers = if server = true ∧ call.eof = true then [status] else []

/-- The call that hands over the last bytes. -/
theorem HandsOver.single {server : Bool} {status : ℤ} {bytes : List UInt8} {call : ReadCall}
    (hbytes : call.bytes = bytes) (heof : call.eof = true)
    (htrailers : call.trailers = if server = true then [status] else []) {capacities : List ℕ}
    (hroom : bytes.length ≤ capacities.sum) :
    HandsOver server status bytes capacities [call] where
  order := by rw [List.take_of_length_le hroom]; simpa using hbytes
  last before call' after hcalls := by
    obtain ⟨rfl, hcons⟩ | ⟨before', rfl, hnil⟩ := List.cons_eq_append_iff.mp hcalls
    · obtain ⟨rfl, -⟩ := List.cons.inj hcons
      simp [hbytes, heof]
    · simp at hnil
  ends _ _ := ⟨[], call, rfl, heof, fun c hc ↦ absurd hc List.not_mem_nil⟩
  trailer call' hcall := by
    rw [List.mem_singleton] at hcall
    subst hcall
    simpa [heof] using htrailers

/-- A call that leaves bytes for the next ones. -/
theorem HandsOver.cons {server : Bool} {status : ℤ} {chunk rest : List UInt8} {call : ReadCall}
    (hbytes : call.bytes = chunk) (heof : call.eof = false) (htrailers : call.trailers = [])
    (hrest : rest ≠ []) {capacities : List ℕ} {calls : List ReadCall}
    (h : HandsOver server status rest capacities calls) :
    HandsOver server status (chunk ++ rest) (chunk.length :: capacities) (call :: calls) where
  order := by
    rw [List.map_cons, List.flatten_cons, h.order, hbytes, List.sum_cons, List.take_length_add_append]
  last before call' after hcalls := by
    obtain ⟨rfl, hcons⟩ | ⟨before', rfl, htail⟩ := List.cons_eq_append_iff.mp hcalls
    · obtain ⟨rfl, -⟩ := List.cons.inj hcons
      simp [hbytes, heof, hrest]
    · rw [h.last before' call' after htail, List.cons_append, List.map_cons, List.flatten_cons,
        hbytes, List.append_cancel_left_eq]
  ends _ hroom := by
    rw [List.length_append, List.sum_cons] at hroom
    have hcalls : calls ≠ [] := by
      rintro rfl
      have horder := h.order
      rw [List.take_of_length_le (by omega)] at horder
      exact hrest horder.symm
    obtain ⟨before, last, hsplit, hlast, hothers⟩ := h.ends hcalls (by omega)
    refine ⟨call :: before, last, by rw [hsplit, List.cons_append], hlast, fun c hc ↦ ?_⟩
    rcases List.mem_cons.mp hc with rfl | hc
    · exact heof
    · exact hothers c hc
  trailer call' hcall := by
    rcases List.mem_cons.mp hcall with rfl | hcall
    · simp [heof, htrailers]
    · exact h.trailer call' hcall

theorem readAll_handsOver (server : Bool) {s : GrpcOutgoing} {bytes : List UInt8}
    (h : Collects s.outgoing bytes) (hsent : s.sent ≤ bytes.length)
    (capacities : List (ℕ × Bool)) :
    HandsOver server s.status (bytes.drop s.sent) (capacities.map Prod.fst)
      (readAll server s capacities) := by
  induction capacities generalizing s with
  | nil =>
      refine ⟨by simp [readAll], fun before call after hcalls ↦ ?_, fun hne ↦ absurd rfl hne,
        fun call hcall ↦ absurd hcall List.not_mem_nil⟩
      simp [readAll] at hcalls
  | cons next rest ih =>
      obtain ⟨capacity, refused⟩ := next
      obtain ⟨hnext, hbytes, heof, htrailers⟩ := readData_eq server h hsent capacity refused
      rw [readAll, List.map_cons]
      dsimp only
      by_cases hlast : bytes.length ≤ s.sent + capacity
      · have htake : (bytes.drop s.sent).take capacity = bytes.drop s.sent :=
          List.take_of_length_le (by rw [List.length_drop]; omega)
        rw [decide_eq_true hlast] at heof
        rw [heof, if_pos rfl]
        refine HandsOver.single (hbytes.trans htake) heof ?_ ?_
        · simpa [hlast] using htrailers
        · rw [List.length_drop, List.sum_cons]
          omega
      · rw [decide_eq_false hlast] at heof
        rw [if_neg (fun hand ↦ hlast hand.2)] at htrailers
        have hsent' : min (s.sent + capacity) bytes.length = s.sent + capacity := by omega
        rw [hsent'] at hnext
        have hih := ih (s := { s with sent := s.sent + capacity }) h (by dsimp only; omega)
        have hsplit := List.take_append_drop capacity (bytes.drop s.sent)
        rw [List.drop_drop] at hsplit
        have hlength : ((bytes.drop s.sent).take capacity).length = capacity := by
          rw [List.length_take, List.length_drop]
          omega
        have hrest : bytes.drop (s.sent + capacity) ≠ [] := by
          rw [Ne, List.drop_eq_nil_iff]
          exact hlast
        have hcons := HandsOver.cons hbytes heof htrailers hrest hih
        rw [hsplit, hlength] at hcons
        rw [heof, hnext]
        exact hcons

/-- A message of at most 4 MiB is packed, its bytes are collected in whatever chunks they
come, and it is unpacked again; a buffer is unpacked only if it holds a zero byte, a length
within the limit and as many bytes; and the session gets the bytes of a buffer once and in
order, the end of data with the last of them, and from a server the trailer with it. -/
theorem grpc_messages :
    (∀ message : List UInt8, message.length ≤ grpcLimit →
      (TcGrpcBuffer.empty.pack message).2 = 0 ∧
        ∀ chunks : List (List UInt8),
          chunks.flatten = (TcGrpcBuffer.empty.pack message).1.contents →
            (TcGrpcBuffer.empty.addAll chunks).2 = true ∧
              (TcGrpcBuffer.empty.addAll chunks).1.unpack = (0, message)) ∧
    (∀ chunks : List (List UInt8), (TcGrpcBuffer.empty.addAll chunks).2 = true →
      ((TcGrpcBuffer.empty.addAll chunks).1.unpack.1 = 0 ↔
        ∃ a1 a2 a3 a4 message, chunks.flatten = 0 :: a1 :: a2 :: a3 :: a4 :: message ∧
          message.length = bigEndian a1 a2 a3 a4 ∧ message.length ≤ grpcLimit)) ∧
    ∀ (chunks : List (List UInt8)) (server : Bool) (status : ℤ) (capacities : List (ℕ × Bool)),
      (TcGrpcBuffer.empty.addAll chunks).2 = true →
        HandsOver server status chunks.flatten (capacities.map Prod.fst)
          (readAll server ⟨(TcGrpcBuffer.empty.addAll chunks).1, 0, status⟩ capacities) := by
  refine ⟨fun message hlimit ↦ ?_, fun chunks htaken ↦ ?_, fun chunks server status capacities
    htaken ↦ ?_⟩
  · obtain ⟨hpacked, hcode⟩ := Collects.pack hlimit
    refine ⟨hcode, fun chunks hchunks ↦ ?_⟩
    rw [hpacked.contents_eq] at hchunks
    have hfits : ([] : List UInt8).length + chunks.flatten.length ≤ grpcLimit + 5 := by
      rw [hchunks, length_grpcFrame, List.length_nil]
      omega
    obtain ⟨hall, htaken⟩ := Collects.empty.addAll chunks hfits
    rw [List.nil_append, hchunks] at hall
    exact ⟨htaken, hall.unpack_frame hlimit⟩
  · exact (Collects.empty.of_addAll chunks htaken).unpack_iff
  · exact readAll_handsOver server (s := ⟨_, 0, status⟩) (Collects.empty.of_addAll chunks htaken)
      (Nat.zero_le _) capacities

/-- A message of two bytes in three chunks. -/
theorem grpc_messages_two :
    ([104, 105] : List UInt8).length ≤ grpcLimit ∧
      (TcGrpcBuffer.empty.addAll [[0, 0], [0, 0, 2, 104], [105]]).1.unpack = (0, [104, 105]) := by
  have hlimit : ([104, 105] : List UInt8).length ≤ grpcLimit := by decide
  refine ⟨hlimit, ((grpc_messages.1 [104, 105] hlimit).2 [[0, 0], [0, 0, 2, 104], [105]] ?_).2⟩
  decide

end TinyCPlus.Runtime
