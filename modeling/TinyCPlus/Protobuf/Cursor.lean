import TinyCPlus.Protobuf.ReadAhead

/-!
# Readers in memory

The reader as `protobuf.c` has it: a string, a position in it and the sizes of a
64-bit machine.  A byte outside the string and a loop without an end are traps.
-/

namespace TinyCPlus.Protobuf

abbrev U32 := BitVec 32

/-- A `TinyString`: the bytes behind the pointer, unless it is null. -/
structure TinyString where
  data : Option (List Byte)
  length : U64
  fits : ∀ bytes ∈ data, bytes.length = length.toNat

namespace TinyString

def bytes (s : TinyString) : List Byte := s.data.getD []

end TinyString

/-- A string inside the input: where it starts, unless it is null, and its length. -/
structure View where
  start : Option U64
  length : U64
deriving DecidableEq, Repr

namespace View

def null : View := ⟨none, 0⟩

/-- Every byte of the view is a byte of the string. -/
def Inside (v : View) (s : TinyString) : Prop :=
  match v.start with
  | none => v.length = 0
  | some start => start.toNat + v.length.toNat ≤ s.bytes.length

/-- The bytes that are viewed. -/
def bytes (v : View) (s : TinyString) : List Byte :=
  match v.start with
  | none => []
  | some start => (s.bytes.drop start.toNat).take v.length.toNat

end View

inductive Trap where
  | outside
  | turns
deriving DecidableEq, Repr

/-- `TcPbReader` -/
structure Cursor where
  input : TinyString
  position : U64
  wire : U32
  error : ℕ

namespace Cursor

/-- `tc_pb_reader` -/
def create (input : TinyString) : Cursor :=
  let bad := limit < input.length.toNat ∨ (input.data = none ∧ input.length ≠ 0)
  ⟨input, 0, 0, if bad then 3 else 0⟩

/-- `tc_pb_reader_fail` -/
def fail (r : Cursor) : Cursor := { r with error := 3 }

/-- `tc_pb_reader_done` -/
def done (r : Cursor) : Bool := r.error != 0 || r.position == r.input.length

/-- `r->input.data[r->position++]` -/
def byte (r : Cursor) : Except Trap (Byte × Cursor) :=
  match r.input.bytes[r.position.toNat]? with
  | some byte => .ok (byte, { r with position := r.position + 1 })
  | none => .error .outside

/-- The loop of `tc_pb_read_varint` with `n` turns left. -/
def varintLoop : ℕ → U64 → Cursor → Except Trap (Option U64 × Cursor)
  | 0, _, r => .ok (none, r)
  | n + 1, value, r =>
      if r.input.length ≤ r.position then .ok (none, r)
      else do
        let (byte, r) ← r.byte
        if 9 - n = 9 ∧ 1 < byte then .ok (none, r)
        else
          let value := value ||| (byte &&& 127).setWidth 64 <<< (7 * (9 - n))
          if byte &&& 128 = 0 then .ok (some value, r) else varintLoop n value r

/-- `tc_pb_read_varint` -/
def readVarint (r : Cursor) : Except Trap (U64 × Cursor) :=
  if r.error ≠ 0 then .ok (0, r)
  else do
    match ← varintLoop 10 0 r with
    | (some value, r) => .ok (value, r)
    | (none, r) => .ok (0, r.fail)

/-- The loop of `tc_pb_read_fixed` from byte `i` on. -/
def fixedLoop : ℕ → ℕ → U64 → Cursor → Except Trap (U64 × Cursor)
  | 0, _, value, r => .ok (value, r)
  | n + 1, i, value, r => do
      let (byte, r) ← r.byte
      fixedLoop n (i + 1) (value ||| byte.setWidth 64 <<< (8 * i)) r

/-- `tc_pb_read_fixed` -/
def readFixed (r : Cursor) (count : ℤ) : Except Trap (U64 × Cursor) :=
  if r.error ≠ 0 then .ok (0, r)
  else if (count ≠ 4 ∧ count ≠ 8) ∨ r.input.length - r.position < BitVec.ofInt 64 count then
    .ok (0, r.fail)
  else fixedLoop count.toNat 0 0 r

/-- `tc_pb_read_bytes` -/
def readBytes (r : Cursor) : Except Trap (View × Cursor) := do
  let (length, r) ← r.readVarint
  if r.error ≠ 0 ∨ r.input.length - r.position < length then .ok (View.null, r.fail)
  else .ok (⟨some r.position, length⟩, { r with position := r.position + length })

/-- `tc_pb_next` -/
def next (r : Cursor) : Except Trap (U32 × Cursor) :=
  if r.done then .ok (0, r)
  else do
    let (tag, r) ← r.readVarint
    let r := { r with wire := tag.setWidth 32 &&& 7 }
    if r.error ≠ 0 ∨ tag >>> 3 = 0 ∨ 536870911 < tag >>> 3 ∨ (5 : U32) < r.wire then
      .ok (0, r.fail)
    else .ok ((tag >>> 3).setWidth 32, r)

/-- `tc_pb_skip_depth`, with the loop over the records of a group. -/
def skipDepth (group : Cursor → U32 → ℕ → Except Trap Cursor) (r : Cursor) (field : U32)
    (depth : ℕ) : Except Trap Cursor :=
  if 64 < depth then .ok r.fail
  else
    match r.wire.toNat with
    | 0 => Prod.snd <$> r.readVarint
    | 1 => Prod.snd <$> r.readFixed 8
    | 2 => Prod.snd <$> r.readBytes
    | 5 => Prod.snd <$> r.readFixed 4
    | 3 => group r field depth
    | _ => .ok r.fail

/-- The loop over the records of a group, for a number of turns. -/
def skipGroup : ℕ → Cursor → U32 → ℕ → Except Trap Cursor
  | 0, _, _, _ => .error .turns
  | fuel + 1, r, field, depth =>
      if r.done then .ok r.fail
      else do
        let (next, r) ← r.next
        if r.wire = 4 then .ok (if field ≠ next then r.fail else r)
        else
          let r ← skipDepth (skipGroup fuel) r next (depth + 1)
          skipGroup fuel r field depth

/-- The bytes that are left. -/
def left (r : Cursor) : ℕ := r.input.length.toNat - r.position.toNat

/-- `tc_pb_skip` -/
def skip (r : Cursor) (field : U32) : Except Trap Cursor :=
  skipDepth (skipGroup (r.left + 1)) r field 0

/-! ## The reader behind the position -/

/-- The reader of the bytes from the position on has the same state. -/
structure Represents (r : Cursor) (t : TcPbReader) : Prop where
  within : r.position.toNat ≤ r.input.length.toNat
  rest : t.rest = r.input.bytes.drop r.position.toNat
  wire : t.wire = r.wire.toNat
  error : t.error = r.error
  full : r.error = 0 → r.input.bytes.length = r.input.length.toNat

/-- What a read does: the input stays, the position does not go back, and the
reader that is left is `t`. -/
structure Leaves (r : Cursor) (t : TcPbReader) (s : Cursor) : Prop where
  input : s.input = r.input
  advances : r.position.toNat ≤ s.position.toNat
  represents : Represents s t

namespace Leaves

variable {r s s' : Cursor} {t t' : TcPbReader}

theorem refl (h : Represents r t) : Leaves r t r := ⟨rfl, le_rfl, h⟩

theorem trans (h : Leaves r t s) (h' : Leaves s t' s') : Leaves r t' s' :=
  ⟨h'.input.trans h.input, h.advances.trans h'.advances, h'.represents⟩

theorem fail (h : Leaves r t s) : Leaves r t.fail s.fail :=
  ⟨h.input, h.advances,
    ⟨h.represents.within, h.represents.rest, h.represents.wire, rfl, fun hzero ↦ by cases hzero⟩⟩

end Leaves

section Represents

variable {r : Cursor} {t : TcPbReader}

theorem bytes_length_le (s : TinyString) : s.bytes.length ≤ s.length.toNat := by
  rcases s with ⟨_ | bytes, length, fits⟩
  · exact Nat.zero_le _
  · exact (fits bytes rfl).le

theorem represents_create (input : TinyString) :
    Represents (create input) ⟨input.bytes, 0, (create input).error⟩ where
  within := Nat.zero_le _
  rest := rfl
  wire := rfl
  error := rfl
  full := by
    intro hzero
    have hgood : ¬ (limit < input.length.toNat ∨ (input.data = none ∧ input.length ≠ 0)) := by
      intro hbad
      rw [create, if_pos hbad] at hzero
      cases hzero
    rcases input with ⟨_ | bytes, length, fits⟩
    · have hlength : length = 0 := by
        by_contra hne
        exact hgood (Or.inr ⟨rfl, hne⟩)
      subst hlength
      rfl
    · exact fits bytes rfl

theorem Represents.rest_length (h : Represents r t) (hok : r.error = 0) :
    t.rest.length = (r.input.length - r.position).toNat := by
  have hwithin := h.within
  rw [h.rest, List.length_drop, h.full hok]
  exact (BitVec.toNat_sub_of_le (BitVec.le_def.mpr h.within)).symm

theorem Represents.rest_nil_iff (h : Represents r t) (hok : r.error = 0) :
    t.rest = [] ↔ r.position = r.input.length := by
  have hwithin := h.within
  rw [h.rest, List.drop_eq_nil_iff, h.full hok, BitVec.toNat_eq]
  omega

theorem Represents.done (h : Represents r t) : r.done = t.done := by
  by_cases hok : r.error = 0
  · have hnil : (t.rest == []) = (r.position == r.input.length) := by
      rw [beq_eq_beq]
      exact h.rest_nil_iff hok
    rw [Cursor.done, TcPbReader.done, h.error, hnil]
  · have herror : (r.error != 0) = true := bne_iff_ne.mpr hok
    rw [Cursor.done, TcPbReader.done, h.error, herror, Bool.true_or, Bool.true_or]

/-- A byte of the reader is the byte at the position. -/
theorem Represents.byte (h : Represents r t) (hok : r.error = 0) {byte : Byte} {s : List Byte}
    (hrest : t.rest = byte :: s) :
    r.position < r.input.length ∧
      ∃ r', r.byte = .ok (byte, r') ∧ Leaves r { t with rest := s } r' ∧ r'.error = 0 := by
  have hwithin := h.within
  have hlength := h.rest_length hok
  have hdrop : r.input.bytes.drop r.position.toNat = byte :: s := h.rest.symm.trans hrest
  have hget : r.input.bytes[r.position.toNat]? = some byte := by
    rw [← List.head?_drop, hdrop]
    rfl
  rw [hrest, List.length_cons, BitVec.toNat_sub_of_le (BitVec.le_def.mpr hwithin)] at hlength
  have hlt : r.position < r.input.length := by
    rw [BitVec.lt_def]
    omega
  have hnext : (r.position + 1).toNat = r.position.toNat + 1 := by
    have := r.input.length.isLt
    have hone : (1 : U64).toNat = 1 := rfl
    rw [BitVec.toNat_add, hone]
    omega
  refine ⟨hlt, { r with position := r.position + 1 }, ?_, ⟨rfl, ?_, ?_⟩, hok⟩
  · rw [Cursor.byte, hget]
  · dsimp only
    omega
  · refine ⟨?_, ?_, h.wire, h.error, h.full⟩
    · dsimp only
      omega
    · dsimp only
      rw [hnext, ← List.drop_drop, hdrop]
      rfl

theorem Represents.varintLoop (h : Represents r t) (hok : r.error = 0) (n : ℕ) (value : U64) :
    ∃ r', varintLoop n value r = .ok ((Protobuf.varintLoop n value t.rest).1, r') ∧
      Leaves r { t with rest := (Protobuf.varintLoop n value t.rest).2 } r' ∧ r'.error = 0 := by
  induction n generalizing r t value with
  | zero => exact ⟨r, rfl, .refl h, hok⟩
  | succ n ih =>
      cases hrest : t.rest with
      | nil =>
          have hend : r.input.length ≤ r.position := by
            rw [(h.rest_nil_iff hok).mp hrest]
            exact BitVec.le_refl _
          refine ⟨r, if_pos hend, ?_, hok⟩
          rw [Protobuf.varintLoop, ← hrest]
          exact .refl h
      | cons byte s =>
          obtain ⟨hlt, r₁, hbyte, hleaves, hok₁⟩ := h.byte hok hrest
          have hopen : ¬ r.input.length ≤ r.position := by
            rw [BitVec.le_def]
            rw [BitVec.lt_def] at hlt
            omega
          rw [Cursor.varintLoop, if_neg hopen, hbyte]
          by_cases hlast : 9 - n = 9 ∧ 1 < byte
          · have hlist : Protobuf.varintLoop (n + 1) value (byte :: s) = (none, s) := if_pos hlast
            rw [hlist]
            exact ⟨r₁, if_pos hlast, hleaves, hok₁⟩
          · by_cases hmark : byte &&& 128 = 0
            · have hlist : Protobuf.varintLoop (n + 1) value (byte :: s) =
                  (some (value ||| (byte &&& 127).setWidth 64 <<< (7 * (9 - n))), s) :=
                (if_neg hlast).trans (if_pos hmark)
              rw [hlist]
              exact ⟨r₁, (if_neg hlast).trans (if_pos hmark), hleaves, hok₁⟩
            · have hlist : Protobuf.varintLoop (n + 1) value (byte :: s) = Protobuf.varintLoop n
                  (value ||| (byte &&& 127).setWidth 64 <<< (7 * (9 - n))) s :=
                (if_neg hlast).trans (if_neg hmark)
              obtain ⟨r₂, hrun, hrest₂, hok₂⟩ := ih hleaves.represents hok₁
                (value ||| (byte &&& 127).setWidth 64 <<< (7 * (9 - n)))
              rw [hlist]
              exact ⟨r₂, ((if_neg hlast).trans (if_neg hmark)).trans hrun,
                hleaves.trans hrest₂, hok₂⟩

theorem Represents.readVarint (h : Represents r t) :
    ∃ r', readVarint r = .ok (t.readVarint.1, r') ∧ Leaves r t.readVarint.2 r' := by
  rw [Cursor.readVarint, TcPbReader.readVarint]
  by_cases hok : r.error = 0
  · have hopen : ¬ r.error ≠ 0 := not_not.mpr hok
    obtain ⟨r', hrun, hleaves, -⟩ := h.varintLoop hok 10 0
    rw [if_neg hopen, if_neg (h.error ▸ hopen), hrun]
    rcases hloop : Protobuf.varintLoop 10 0 t.rest with ⟨_ | x, s⟩
    · rw [hloop] at hleaves
      exact ⟨r'.fail, rfl, hleaves.fail⟩
    · rw [hloop] at hleaves
      exact ⟨r', rfl, hleaves⟩
  · rw [if_pos hok, if_pos (h.error ▸ hok)]
    exact ⟨r, rfl, .refl h⟩

theorem Represents.fixedLoop (h : Represents r t) (hok : r.error = 0) {n : ℕ} (i : ℕ)
    (value : U64) (hroom : n ≤ t.rest.length) :
    ∃ r', fixedLoop n i value r = .ok ((Protobuf.fixedLoop n i value t.rest).1, r') ∧
      Leaves r { t with rest := (Protobuf.fixedLoop n i value t.rest).2 } r' := by
  induction n generalizing r t i value with
  | zero => exact ⟨r, by simp [Cursor.fixedLoop, Protobuf.fixedLoop],
      by simpa [Protobuf.fixedLoop] using Leaves.refl h⟩
  | succ n ih =>
      cases hrest : t.rest with
      | nil =>
          rw [hrest] at hroom
          exact absurd hroom (Nat.not_succ_le_zero n)
      | cons byte s =>
          obtain ⟨-, r₁, hbyte, hleaves, hok₁⟩ := h.byte hok hrest
          rw [hrest] at hroom
          obtain ⟨r₂, hrun, hrest₂⟩ := ih hleaves.represents hok₁ (i + 1)
            (value ||| byte.setWidth 64 <<< (8 * i)) (Nat.le_of_succ_le_succ hroom)
          rw [Cursor.fixedLoop, hbyte, Protobuf.fixedLoop]
          exact ⟨r₂, hrun, hleaves.trans hrest₂⟩

theorem Represents.readFixed (h : Represents r t) (count : ℤ) :
    ∃ r', readFixed r count = .ok ((t.readFixed count.toNat).1, r') ∧
      Leaves r (t.readFixed count.toNat).2 r' := by
  rw [Cursor.readFixed, TcPbReader.readFixed]
  by_cases hok : r.error = 0
  · have hopen : ¬ r.error ≠ 0 := not_not.mpr hok
    have hopen' : ¬ t.error ≠ 0 := not_not.mpr (h.error.trans hok)
    rw [if_neg hopen, if_neg hopen']
    have hlength := h.rest_length hok
    by_cases hroom : (count ≠ 4 ∧ count ≠ 8) ∨
        r.input.length - r.position < BitVec.ofInt 64 count
    · have hroom' : (count.toNat ≠ 4 ∧ count.toNat ≠ 8) ∨ t.rest.length < count.toNat := by
        rw [hlength]
        rcases hroom with hcount | hroom
        · exact Or.inl (by omega)
        · by_cases hfour : count = 4
          · subst hfour
            exact Or.inr hroom
          · by_cases height : count = 8
            · subst height
              exact Or.inr hroom
            · exact Or.inl (by omega)
      rw [if_pos hroom, if_pos hroom']
      exact ⟨r.fail, rfl, (Leaves.refl h).fail⟩
    · have hroom' : ¬ ((count.toNat ≠ 4 ∧ count.toNat ≠ 8) ∨ t.rest.length < count.toNat) := by
        rw [hlength]
        rw [not_or] at hroom ⊢
        obtain ⟨hcount, hroom⟩ := hroom
        obtain rfl | rfl : count = 4 ∨ count = 8 := by omega
        · exact ⟨by simp, hroom⟩
        · exact ⟨by simp, hroom⟩
      rw [if_neg hroom, if_neg hroom']
      exact h.fixedLoop hok 0 0 (by omega)
  · rw [if_pos hok, if_pos (h.error ▸ hok)]
    exact ⟨r, rfl, .refl h⟩

/-- The view that is read lies inside the input and has the bytes that are read. -/
theorem Represents.readBytes (h : Represents r t) :
    ∃ v r', readBytes r = .ok (v, r') ∧ Leaves r t.readBytes.2 r' ∧ v.Inside r.input ∧
      v.bytes r.input = t.readBytes.1 ∧ (t.error ≠ 0 → v = View.null) := by
  obtain ⟨r₁, hrun, hleaves⟩ := h.readVarint
  have hsticky := TcPbReader.reads_varint.sticky (r := t)
  rw [Cursor.readBytes, hrun, TcPbReader.readBytes]
  rcases hread : t.readVarint with ⟨length, t₁⟩
  rw [hread] at hleaves hsticky
  dsimp only
  have h₁ : Represents r₁ t₁ := hleaves.represents
  by_cases hok : r₁.error = 0
  · have hopen : ¬ t.error ≠ 0 := fun herror ↦ hsticky herror (h₁.error.trans hok)
    have hlength := h₁.rest_length hok
    have hwithin := h₁.within
    have hsub := BitVec.toNat_sub_of_le (BitVec.le_def.mpr hwithin)
    by_cases hroom : r₁.input.length - r₁.position < length
    · have hroom' : t₁.error ≠ 0 ∨ t₁.rest.length < length.toNat := by
        rw [hlength]
        exact Or.inr hroom
      rw [if_pos hroom']
      exact ⟨View.null, r₁.fail, if_pos (Or.inr hroom), hleaves.fail, rfl, rfl, fun _ ↦ rfl⟩
    · have hroom' : ¬ (t₁.error ≠ 0 ∨ t₁.rest.length < length.toNat) := by
        rw [hlength, h₁.error, not_or, not_not]
        exact ⟨hok, hroom⟩
      have hle : length.toNat ≤ r₁.input.length.toNat - r₁.position.toNat := by
        rw [BitVec.lt_def, hsub] at hroom
        exact Nat.not_lt.mp hroom
      have hnext : (r₁.position + length).toNat = r₁.position.toNat + length.toNat := by
        have := r₁.input.length.isLt
        rw [BitVec.toNat_add]
        omega
      have hfull := h₁.full hok
      rw [if_neg hroom']
      refine ⟨⟨some r₁.position, length⟩, { r₁ with position := r₁.position + length },
        if_neg ?_, ⟨hleaves.input, ?_, ?_⟩, ?_, ?_, fun herror ↦ absurd herror hopen⟩
      · rw [not_or, not_not]
        exact ⟨hok, hroom⟩
      · have := hleaves.advances
        dsimp only
        omega
      · refine ⟨?_, ?_, h₁.wire, h₁.error, h₁.full⟩
        · dsimp only
          omega
        · dsimp only
          rw [h₁.rest, List.drop_drop, hnext]
      · rw [View.Inside, ← hleaves.input]
        dsimp only
        omega
      · rw [View.bytes, ← hleaves.input]
        dsimp only
        rw [h₁.rest]
  · have hbad : t₁.error ≠ 0 := fun hzero ↦ hok (h₁.error.symm.trans hzero)
    rw [if_pos (Or.inl hbad)]
    exact ⟨View.null, r₁.fail, if_pos (Or.inl hok), hleaves.fail, rfl, rfl, fun _ ↦ rfl⟩

theorem Represents.next (h : Represents r t) :
    ∃ n r', next r = .ok (n, r') ∧ Leaves r t.next.2 r' ∧ n.toNat = t.next.1 := by
  rw [Cursor.next, TcPbReader.next, h.done]
  by_cases hdone : t.done = true
  · rw [if_pos hdone, if_pos hdone]
    exact ⟨0, r, rfl, .refl h, rfl⟩
  · obtain ⟨r₁, hrun, hleaves⟩ := h.readVarint
    rw [if_neg hdone, if_neg hdone, hrun]
    rcases hread : t.readVarint with ⟨tag, t₁⟩
    rw [hread] at hleaves
    dsimp only
    have hwire : (tag.setWidth 32 &&& 7).toNat = (tag &&& 7).toNat := by
      rw [BitVec.toNat_and, BitVec.toNat_and, BitVec.toNat_setWidth]
      have hmask (x : ℕ) : x &&& 7 = x % 8 := Nat.and_two_pow_sub_one_eq_mod x 3
      have hseven : (7 : U32).toNat = 7 := rfl
      have hseven' : (7 : U64).toNat = 7 := rfl
      rw [hseven, hseven', hmask, hmask]
      omega
    have hleaves' : Leaves r { t₁ with wire := (tag &&& 7).toNat }
        { r₁ with wire := tag.setWidth 32 &&& 7 } :=
      ⟨hleaves.input, hleaves.advances,
        ⟨hleaves.represents.within, hleaves.represents.rest, hwire.symm,
          hleaves.represents.error, hleaves.represents.full⟩⟩
    have hfive : (5 : U32) < tag.setWidth 32 &&& 7 ↔ 5 < (tag &&& 7).toNat := by
      rw [BitVec.lt_def, hwire]
      rfl
    by_cases hbad : t₁.error ≠ 0 ∨ tag >>> 3 = 0 ∨ 536870911 < tag >>> 3 ∨ 5 < (tag &&& 7).toNat
    · rw [if_pos hbad]
      rw [hleaves.represents.error, ← hfive] at hbad
      exact ⟨0, _, if_pos hbad, hleaves'.fail, rfl⟩
    · rw [if_neg hbad]
      have hlimit : ¬ 536870911 < tag >>> 3 := fun hlarge ↦ hbad (Or.inr (Or.inr (Or.inl hlarge)))
      rw [hleaves.represents.error, ← hfive] at hbad
      refine ⟨(tag >>> 3).setWidth 32, _, if_neg hbad, hleaves', ?_⟩
      have hmax : (tag >>> 3).toNat ≤ 536870911 := Nat.not_lt.mp hlimit
      rw [BitVec.toNat_setWidth]
      omega

end Represents

end Cursor

end TinyCPlus.Protobuf
