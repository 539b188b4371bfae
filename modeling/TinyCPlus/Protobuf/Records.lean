import TinyCPlus.Protobuf.WireRoundTrip

/-!
# Streams of records

A record is written by a tag and a value, and read by `next`, `wire` and the
read call for that wire type.
-/

namespace TinyCPlus.Protobuf

inductive Payload where
  | varint (value : U64)
  | fixed64 (value : U64)
  | fixed32 (value : BitVec 32)
  | bytes (value : List Byte)
deriving DecidableEq, Repr

namespace Payload

def wire : Payload → ℕ
  | varint _ => 0
  | fixed64 _ => 1
  | bytes _ => 2
  | fixed32 _ => 5

end Payload

/-- A record with a legal field number. -/
structure Record where
  field : ℕ
  payload : Payload
  pos : 1 ≤ field
  le : field ≤ 536870911

/-- A call of a method of `ProtoWriter`. -/
inductive Call where
  | tag (field wire : ℕ)
  | number (value : U64)
  | fixed32 (value : U64)
  | fixed64 (value : U64)
  | bytes (value : List Byte)

namespace Call

def run (w : TcPbWriter) : Call → TcPbWriter
  | tag field wire => w.tag field wire
  | number value => w.writeVarint value
  | fixed32 value => w.writeFixed value 4
  | fixed64 value => w.writeFixed value 8
  | bytes value => w.writeBytes value

end Call

/-- The value of a record as a call. -/
def Payload.call : Payload → Call
  | varint value => .number value
  | fixed64 value => .fixed64 value
  | fixed32 value => .fixed32 (value.setWidth 64)
  | bytes value => .bytes value

def Record.calls (r : Record) : List Call := [.tag r.field r.payload.wire, r.payload.call]

/-- The calls for a list of records. -/
def calls (records : List Record) : List Call := records.flatMap Record.calls

/-- The matching read call. -/
def readPayload (wire : ℕ) (r : TcPbReader) : Option Payload × TcPbReader :=
  match wire with
  | 0 => let (value, r) := r.readVarint; (some (.varint value), r)
  | 1 => let (value, r) := r.readFixed 8; (some (.fixed64 value), r)
  | 2 => let (value, r) := r.readBytes; (some (.bytes value), r)
  | 5 => let (value, r) := r.readFixed 4; (some (.fixed32 (value.setWidth 32)), r)
  | _ => (none, r)

/-- Reads records until the reader is done, at most as many as there are bytes. -/
def readRecords : ℕ → TcPbReader → List (ℕ × Payload) × TcPbReader
  | 0, r => ([], r)
  | fuel + 1, r =>
      if r.done then ([], r)
      else
        let (field, r) := r.next
        match readPayload r.wire r with
        | (none, r) => ([], r)
        | (some payload, r) =>
            let (records, r) := readRecords fuel r
            ((field, payload) :: records, r)

/-! ## What the calls write -/

/-- The bytes of a call. -/
def Call.encoding : Call → List Byte
  | tag field wire => varint (BitVec.ofNat 64 field * 8 + BitVec.ofNat 64 wire)
  | number value => varint value
  | fixed32 value => fixedBytes 4 value
  | fixed64 value => fixedBytes 8 value
  | bytes value => varint (BitVec.ofNat 64 value.length) ++ value

def encoding (cs : List Call) : List Byte := cs.flatMap Call.encoding

namespace TcPbWriter

/-- The writer holds what was to be written, or has found that it is too long. -/
structure Holds (w : TcPbWriter) (bytes : List Byte) : Prop where
  error_eq : w.error = if bytes.length ≤ limit then 0 else 8
  data_eq : w.error = 0 → w.data = bytes
  fits : w.data.length ≤ w.capacity

theorem holds_create : create.Holds [] := ⟨rfl, fun _ ↦ rfl, le_rfl⟩

theorem le_growCapacity {fuel capacity length : ℕ} (hpos : 0 < capacity)
    (hfuel : length ≤ capacity + fuel) : length ≤ growCapacity fuel capacity length := by
  induction fuel generalizing capacity with
  | zero => exact hfuel
  | succ fuel ih =>
      rw [growCapacity]
      split
      · exact ih (by omega) (by omega)
      · omega

theorem Holds.append {w : TcPbWriter} {bytes : List Byte} (h : w.Holds bytes)
    (data : List Byte) : (w.append data).Holds (bytes ++ data) := by
  obtain ⟨herror, hdata, hfits⟩ := h
  rw [TcPbWriter.append]
  split
  · rename_i hfailed
    have hlong : ¬ bytes.length ≤ limit := by
      intro hle
      exact hfailed (by rw [herror, if_pos hle])
    refine ⟨?_, fun hok ↦ absurd hok hfailed, hfits⟩
    rw [herror, if_neg hlong, if_neg]
    rw [List.length_append]
    omega
  · rename_i hok
    rw [not_not] at hok
    have hle : bytes.length ≤ limit := by
      by_contra hlong
      rw [hok, if_neg hlong] at herror
      cases herror
    rw [hdata hok] at hfits ⊢
    split
    · rename_i hlong
      refine ⟨?_, fun hzero ↦ absurd hzero (Nat.succ_ne_zero 7), hfits⟩
      rw [if_neg]
      rw [List.length_append]
      omega
    · rename_i hshort
      refine ⟨?_, fun _ ↦ rfl, ?_⟩
      · rw [hok, if_pos]
        rw [List.length_append]
        omega
      · dsimp only
        rw [List.length_append]
        split
        · refine le_growCapacity ?_ (by omega)
          split <;> omega
        · omega

theorem Holds.call {w : TcPbWriter} {bytes : List Byte} (h : w.Holds bytes) (c : Call) :
    (c.run w).Holds (bytes ++ c.encoding) := by
  cases c with
  | tag field wire => exact h.append _
  | number value => exact h.append _
  | fixed32 value => exact h.append _
  | fixed64 value => exact h.append _
  | bytes value =>
      rw [Call.encoding, ← List.append_assoc]
      exact (h.append _).append _

/-- Every call of a run keeps the writer in step with the bytes written. -/
theorem Holds.run {w : TcPbWriter} {bytes : List Byte} (h : w.Holds bytes) (cs : List Call) :
    (cs.foldl Call.run w).Holds (bytes ++ encoding cs) := by
  induction cs generalizing w bytes with
  | nil => simpa [encoding] using h
  | cons c cs ih =>
      rw [encoding, List.flatMap_cons, ← List.append_assoc]
      exact ih (h.call c)

theorem Holds.take {w : TcPbWriter} {bytes : List Byte} (h : w.Holds bytes) :
    w.take.1 = if bytes.length ≤ limit then some bytes else none := by
  rw [TcPbWriter.take, h.error_eq]
  split
  · rename_i hle
    have herror : w.error = 0 := by rw [h.error_eq, if_pos hle]
    simp [h.data_eq herror]
  · simp

end TcPbWriter

/-! ## Reading a record back -/

namespace TcPbReader

theorem readVarint_varint (value : U64) (s : List Byte) (wire : ℕ) :
    readVarint ⟨varint value ++ s, wire, 0⟩ = (value, ⟨s, wire, 0⟩) := by
  rw [readVarint, if_neg (by simp), varintLoop_varint]

theorem length_fixedBytes (n : ℕ) (value : U64) : (fixedBytes n value).length = n := by
  induction n generalizing value with
  | zero => rfl
  | succ n ih => rw [fixedBytes, List.length_cons, ih]

theorem readFixed_fixedBytes {count : ℕ} (hcount : count = 4 ∨ count = 8) (value : U64)
    (s : List Byte) (wire : ℕ) :
    readFixed ⟨fixedBytes count value ++ s, wire, 0⟩ count =
      ((value.setWidth (8 * count)).setWidth 64, ⟨s, wire, 0⟩) := by
  have hlength : ¬ (fixedBytes count value ++ s).length < count := by
    rw [List.length_append, length_fixedBytes]
    omega
  have hgood : ¬ ((count ≠ 4 ∧ count ≠ 8) ∨ (fixedBytes count value ++ s).length < count) := by
    rintro (h | h)
    · omega
    · exact hlength h
  rw [readFixed, if_neg (by simp), if_neg hgood, fixedLoop_fixedBytes]
  simp

/-- The length of a byte string in memory is read back. -/
theorem readBytes_bytes {value : List Byte} (hlength : value.length < 2 ^ 64) (s : List Byte)
    (wire : ℕ) :
    readBytes ⟨varint (BitVec.ofNat 64 value.length) ++ value ++ s, wire, 0⟩ =
      (value, ⟨s, wire, 0⟩) := by
  have hnat : (BitVec.ofNat 64 value.length).toNat = value.length := by
    rw [BitVec.toNat_ofNat, Nat.mod_eq_of_lt hlength]
  rw [readBytes, List.append_assoc, readVarint_varint]
  dsimp only
  rw [hnat, if_neg]
  · rw [List.take_left, List.drop_left]
  · rw [List.length_append]
    simp

/-- The tag of a record is read back. -/
theorem next_tag {field wire : ℕ} (hpos : 1 ≤ field) (hle : field ≤ 536870911) (hwire : wire ≤ 5)
    (s : List Byte) (w : ℕ) :
    next ⟨varint (BitVec.ofNat 64 field * 8 + BitVec.ofNat 64 wire) ++ s, w, 0⟩ =
      (field, ⟨s, wire, 0⟩) := by
  set tag : U64 := BitVec.ofNat 64 field * 8 + BitVec.ofNat 64 wire with htag
  have hnat : tag.toNat = field * 8 + wire := by
    rw [htag, BitVec.toNat_add, BitVec.toNat_mul, BitVec.toNat_ofNat, BitVec.toNat_ofNat]
    simp only [BitVec.ofNat_eq_ofNat, BitVec.toNat_ofNat]
    omega
  have hfield : (tag >>> 3).toNat = field := by
    rw [BitVec.toNat_ushiftRight, Nat.shiftRight_eq_div_pow, hnat]
    omega
  have hlow : (tag &&& 7).toNat = wire := by
    rw [BitVec.toNat_and, hnat, show (7 : U64).toNat = 2 ^ 3 - 1 from rfl,
      Nat.and_two_pow_sub_one_eq_mod]
    omega
  have hdone : done ⟨varint tag ++ s, w, 0⟩ = false := by
    rw [done, varint, varintBytes]
    split <;> rfl
  have hgood : ¬ (tag >>> 3 = 0 ∨ 536870911 < tag >>> 3) := by
    rintro (h | h)
    · rw [h] at hfield
      simp at hfield
      omega
    · rw [BitVec.lt_def, hfield] at h
      simp at h
      omega
  rw [next, hdone, if_neg Bool.false_ne_true, readVarint_varint]
  dsimp only
  rw [hlow, if_neg]
  · rw [hfield]
  · rintro (h | h | h | h)
    · exact h rfl
    · exact hgood (Or.inl h)
    · exact hgood (Or.inr h)
    · omega

end TcPbReader

theorem readPayload_call {p : Payload} (hlength : p.call.encoding.length < 2 ^ 64)
    (s : List Byte) :
    readPayload p.wire ⟨p.call.encoding ++ s, p.wire, 0⟩ = (some p, ⟨s, p.wire, 0⟩) := by
  cases p with
  | varint value =>
      simp only [readPayload, Payload.wire, Payload.call, Call.encoding,
        TcPbReader.readVarint_varint]
  | fixed64 value =>
      simp only [readPayload, Payload.wire, Payload.call, Call.encoding,
        TcPbReader.readFixed_fixedBytes (Or.inr rfl)]
      simp
  | fixed32 value =>
      simp only [readPayload, Payload.wire, Payload.call, Call.encoding,
        TcPbReader.readFixed_fixedBytes (Or.inl rfl)]
      simp
  | bytes value =>
      have hvalue : value.length < 2 ^ 64 := by
        simp only [Payload.call, Call.encoding, List.length_append] at hlength
        omega
      simp only [readPayload, Payload.wire, Payload.call, Call.encoding,
        TcPbReader.readBytes_bytes hvalue]

/-! ## Reading a stream back -/

theorem Record.encoding_calls (r : Record) :
    encoding r.calls =
      varint (BitVec.ofNat 64 r.field * 8 + BitVec.ofNat 64 r.payload.wire) ++
        r.payload.call.encoding := by
  simp [encoding, Record.calls, Call.encoding]

theorem encoding_calls_cons (r : Record) (records : List Record) :
    encoding (calls (r :: records)) = encoding r.calls ++ encoding (calls records) := by
  simp [encoding, calls]

theorem done_encoding_cons (r : Record) (s : List Byte) (wire : ℕ) :
    TcPbReader.done ⟨encoding r.calls ++ s, wire, 0⟩ = false := by
  rw [r.encoding_calls, TcPbReader.done, varint, varintBytes]
  split <;> rfl

theorem Payload.wire_le (p : Payload) : p.wire ≤ 5 := by
  cases p <;> simp [Payload.wire]

/-- The records of a stream are read back, by induction on the list. -/
theorem readRecords_encoding {records : List Record} {fuel : ℕ} (wire : ℕ)
    (hfuel : (encoding (calls records)).length ≤ fuel)
    (hlength : (encoding (calls records)).length < 2 ^ 64) :
    ∃ wire', readRecords fuel ⟨encoding (calls records), wire, 0⟩ =
      (records.map fun r ↦ (r.field, r.payload), ⟨[], wire', 0⟩) := by
  induction records generalizing fuel wire with
  | nil => cases fuel <;> exact ⟨wire, rfl⟩
  | cons r records ih =>
      rw [encoding_calls_cons] at hfuel hlength ⊢
      have hdone := done_encoding_cons r (encoding (calls records)) wire
      rw [List.length_append] at hfuel hlength
      have hpos : (encoding r.calls).length ≠ 0 := by
        intro hzero
        rw [List.length_eq_zero_iff] at hzero
        have hempty := done_encoding_cons r [] 0
        rw [hzero] at hempty
        cases hempty
      cases fuel with
      | zero => omega
      | succ fuel =>
          have hbound : (encoding (calls records)).length ≤ fuel := by omega
          obtain ⟨wire', hrest⟩ := ih r.payload.wire hbound (by omega)
          have hpayload : r.payload.call.encoding.length < 2 ^ 64 := by
            rw [r.encoding_calls, List.length_append] at hlength
            omega
          refine ⟨wire', ?_⟩
          rw [readRecords, hdone, if_neg Bool.false_ne_true, r.encoding_calls, List.append_assoc,
            TcPbReader.next_tag r.pos r.le r.payload.wire_le]
          dsimp only
          rw [readPayload_call hpayload]
          dsimp only
          rw [hrest]
          rfl

/-- Writing a list of records reports an error from the first call on that
passes the limit, and what it returns otherwise is read back as this list;
zigzag and its inverse lose nothing. -/
theorem records_round_trip (records : List Record) :
    (∀ n, (((calls records).take n).foldl Call.run TcPbWriter.create).error =
        if (encoding ((calls records).take n)).length ≤ limit then 0 else 8) ∧
      (if (encoding (calls records)).length ≤ limit then
        ∃ bytes r, ((calls records).foldl Call.run TcPbWriter.create).take.1 = some bytes ∧
          readRecords bytes.length (TcPbReader.create bytes) =
            (records.map fun r ↦ (r.field, r.payload), r) ∧ r.done = true ∧ r.error = 0
      else ((calls records).foldl Call.run TcPbWriter.create).take.1 = none) ∧
      (∀ n, unzigzag (zigzag n) = n) ∧ ∀ n, zigzag (unzigzag n) = n := by
  have hholds (cs : List Call) : (cs.foldl Call.run TcPbWriter.create).Holds (encoding cs) := by
    simpa using TcPbWriter.holds_create.run cs
  refine ⟨fun n ↦ (hholds _).error_eq, ?_, unzigzag_zigzag, zigzag_unzigzag⟩
  split
  · rename_i hle
    have hlength : (encoding (calls records)).length < 2 ^ 64 := by
      simp only [limit] at hle
      omega
    obtain ⟨wire, hread⟩ := readRecords_encoding 0 le_rfl hlength
    refine ⟨encoding (calls records), ⟨[], wire, 0⟩, ?_, ?_, rfl, rfl⟩
    · rw [(hholds _).take, if_pos hle]
    · rw [TcPbReader.create, if_neg (by omega)]
      exact hread
  · rename_i hlong
    rw [(hholds _).take, if_neg hlong]

end TinyCPlus.Protobuf
