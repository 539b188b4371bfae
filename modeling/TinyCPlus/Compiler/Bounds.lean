import TinyCPlus.Library.IntegerTypes
import Mathlib.Data.List.Range

/-!
# Checked indexing and slicing

`a[i]` and `a[lo:hi]` become pointer arithmetic on the pointer and the length of `a`,
after a call of `tc_index` or `tc_slice_check`.  The calls compare the bounds as `i64` and
`u64`; the pointer arithmetic uses them with the types they have in the program.
-/

namespace TinyCPlus.Compiler

open TinyCPlus.Library

/-! ## Storage -/

/-- An array of elements in memory.  Every element takes a byte at least, since an empty
class is given one, and no object of C has `2 ^ 63` bytes. -/
structure Storage where
  size : ℕ
  elementSize : ℕ
  elementSize_pos : 0 < elementSize
  bytes_lt : size * elementSize < 2 ^ 63

theorem Storage.size_lt (s : Storage) : s.size < 2 ^ 63 :=
  (Nat.le_mul_of_pos_right s.size s.elementSize_pos).trans_lt s.bytes_lt

/-- How the lowered code fails to give a value. -/
inductive Trap where
  | panic (message : String)
  | undefined
deriving DecidableEq

/-- `p + k`, which may point to the end of the storage and no further. -/
def Storage.advance (s : Storage) (p k : Int) : Except Trap Int :=
  if 0 ≤ p + k ∧ p + k ≤ s.size then .ok (p + k) else .error .undefined

/-- `p[k]` -/
def Storage.access (s : Storage) (p k : Int) : Except Trap (Fin s.size) :=
  if h : 0 ≤ p + k ∧ p + k < s.size then .ok ⟨(p + k).toNat, by omega⟩ else .error .undefined

theorem Storage.advance_of_le {s : Storage} {p k : Int} (hlow : 0 ≤ p + k)
    (hhigh : p + k ≤ s.size) : s.advance p k = .ok (p + k) := if_pos ⟨hlow, hhigh⟩

theorem Storage.access_of_lt {s : Storage} {p k : Int} (hlow : 0 ≤ p + k)
    (hhigh : p + k < s.size) : ∃ q, s.access p k = .ok q ∧ (q : Int) = p + k :=
  ⟨_, dif_pos ⟨hlow, hhigh⟩, Int.toNat_of_nonneg hlow⟩

/-! ## The checks of the runtime -/

def tc_index (i n : IntValue) : Except Trap IntValue :=
  if i.value < 0 ∨ n.value ≤ (i.cast .u64).value then .error (.panic "index out of bounds")
  else .ok (i.cast .u64)

def tc_slice_check (lo hi n : IntValue) : Except Trap Unit :=
  if lo.value < 0 ∨ hi.value < lo.value ∨ n.value < (hi.cast .u64).value then
    .error (.panic "slice out of bounds")
  else .ok ()

/-! ## The lowered code -/

/-- What `collection` accepts: a fixed array, a slice, a string or an `Array`. -/
inductive CollectionKind where
  | array
  | slice
  | string
  | named
deriving DecidableEq

/-- A collection as the lowered code sees it: the place of its first element in the storage
and the C value that stands for its length. -/
@[ext] structure Collection where
  kind : CollectionKind
  data : Int
  length : IntValue

/-- The type of an integer literal without a suffix. -/
def literalType (n : ℕ) : IntType := if n < 2 ^ 31 then .i32 else .i64

theorem holds_literal {n : ℕ} (hlt : n < 2 ^ 63) : (literalType n).Holds n := by
  unfold literalType
  split
  · constructor
    · exact (IntType.least_nonpos _).trans (Int.natCast_nonneg n)
    · change (n : Int) ≤ 2 ^ 31 - 1
      omega
  · constructor
    · exact (IntType.least_nonpos _).trans (Int.natCast_nonneg n)
    · change (n : Int) ≤ 2 ^ 63 - 1
      omega

theorem holds_u64 {n : ℕ} (hlt : n < 2 ^ 63) : IntType.u64.Holds n := by
  constructor
  · exact Int.natCast_nonneg n
  · change (n : Int) ≤ 2 ^ 64 - 1
    omega

/-- The length as C text: the count of a fixed array as a literal, a length field else. -/
def lengthValue (kind : CollectionKind) (n : ℕ) (hlt : n < 2 ^ 63) : IntValue :=
  if kind = .array then ⟨literalType n, n, holds_literal hlt⟩ else ⟨.u64, n, holds_u64 hlt⟩

theorem lengthValue_value (kind : CollectionKind) (n : ℕ) (hlt : n < 2 ^ 63) :
    (lengthValue kind n hlt).value = n := by
  unfold lengthValue
  split <;> rfl

/-- The literal `0` that stands for a bound left out. -/
def zeroLiteral : IntValue := ⟨.i32, 0, by decide⟩

/-- `expression` of N_INDEX -/
def lowerIndex (bounds : Bool) (s : Storage) (a : Collection) (i : IntValue) :
    Except Trap (Fin s.size) := do
  let b ← if bounds then tc_index (i.cast .i64) (a.length.cast .u64) else pure i
  s.access a.data b.value

/-- The kind of a slice: `n->type` of N_SLICE. -/
def sliceKind (kind : CollectionKind) : CollectionKind :=
  if kind = .string then .string else .slice

theorem sliceKind_sliceKind (kind : CollectionKind) :
    sliceKind (sliceKind kind) = sliceKind kind := by
  cases kind <;> rfl

/-- `expression` of N_SLICE -/
def lowerSlice (bounds : Bool) (s : Storage) (a : Collection) (lo hi : Option IntValue) :
    Except Trap Collection := do
  let len := a.length
  let lo := lo.getD zeroLiteral
  let hi := hi.getD len
  if bounds then tc_slice_check (lo.cast .i64) (hi.cast .i64) (len.cast .u64)
  let data ← s.advance a.data lo.value
  match hi.sub lo with
  | none => throw .undefined
  | some d => pure ⟨sliceKind a.kind, data, d.cast .u64⟩

/-- A chain of slicings of one collection, as nested N_SLICE nodes. -/
inductive Sliced where
  | whole
  | slice (a : Sliced) (lo hi : Option IntValue)

namespace Sliced

def lower (bounds : Bool) (s : Storage) (v : Collection) : Sliced → Except Trap Collection
  | whole => pure v
  | slice a lo hi => do
      let c ← a.lower bounds s v
      lowerSlice bounds s c lo hi

/-- The chain followed by an indexing. -/
def lowerElement (bounds : Bool) (s : Storage) (v : Collection) (a : Sliced) (i : IntValue) :
    Except Trap (Fin s.size) := do
  let c ← a.lower bounds s v
  lowerIndex bounds s c i

end Sliced

/-! ## What a chain means -/

/-- The lower bound of a slicing. -/
def lowBound (lo : Option IntValue) : Int := (lo.map (·.value)).getD 0

/-- The upper bound of a slicing of `n` elements. -/
def highBound (n : Int) (hi : Option IntValue) : Int := (hi.map (·.value)).getD n

namespace Sliced

/-- The number of elements of the chain over `n` elements. -/
def count (n : Int) : Sliced → Int
  | whole => n
  | slice a lo hi => highBound (a.count n) hi - lowBound lo

/-- How many elements the chain leaves out at its beginning. -/
def skipped : Sliced → Int
  | whole => 0
  | slice a lo _ => a.skipped + lowBound lo

/-- The elements that the chain takes from a list. -/
def elements {α : Type} (l : List α) : Sliced → List α
  | whole => l
  | slice a lo hi =>
      ((a.elements l).take (highBound (a.elements l).length hi).toNat).drop (lowBound lo).toNat

/-- Every slicing of the chain stays inside what it slices. -/
def InBounds (n : Int) : Sliced → Prop
  | whole => True
  | slice a lo hi =>
      a.InBounds n ∧ 0 ≤ lowBound lo ∧ lowBound lo ≤ highBound (a.count n) hi ∧
        highBound (a.count n) hi ≤ a.count n

end Sliced

/-- The code gave up with a message of the runtime. -/
def Panics {α : Type} (r : Except Trap α) : Prop := ∃ message, r = .error (.panic message)

/-- A collection whose length field is the number of its elements, all of them inside
the storage. -/
structure Whole (s : Storage) where
  kind : CollectionKind
  data : ℕ
  length : ℕ
  fits : data + length ≤ s.size

namespace Whole

variable {s : Storage}

theorem length_lt (v : Whole s) : v.length < 2 ^ 63 :=
  (Nat.le_of_add_left_le v.fits).trans_lt s.size_lt

/-- The collection as the lowered code sees it. -/
def value (v : Whole s) : Collection :=
  ⟨v.kind, v.data, lengthValue v.kind v.length v.length_lt⟩

/-- The places of the elements. -/
def positions (v : Whole s) : List ℕ := List.range' v.data v.length

end Whole

/-! ## One check -/

theorem tc_index_of_lt {i n : IntValue} (hnonneg : 0 ≤ i.value) (hlt : i.value < n.value)
    (hn : n.value < 2 ^ 63) :
    ∃ b, tc_index (i.cast .i64) (n.cast .u64) = .ok b ∧ b.value = i.value := by
  have hsigned : (i.cast .i64).value = i.value := by
    obtain ⟨h, -⟩ | ⟨-, h⟩ := i.cast_i64_value
    · exact h
    · omega
  have hcast : ((i.cast .i64).cast .u64).value = i.value := by
    rw [IntValue.cast_u64_value (by omega), hsigned]
  have hlength : (n.cast .u64).value = n.value := IntValue.cast_u64_value (by omega)
  refine ⟨(i.cast .i64).cast .u64, ?_, hcast⟩
  unfold tc_index
  rw [if_neg]
  rintro (h | h)
  · omega
  · omega

theorem tc_index_of_not_lt {i n : IntValue} (hn : 0 ≤ n.value)
    (h : ¬ (0 ≤ i.value ∧ i.value < n.value)) :
    tc_index (i.cast .i64) (n.cast .u64) = .error (.panic "index out of bounds") := by
  have hlength : (n.cast .u64).value = n.value := IntValue.cast_u64_value hn
  unfold tc_index
  rw [if_pos]
  by_cases hneg : (i.cast .i64).value < 0
  · exact Or.inl hneg
  · right
    have hcast := IntValue.cast_u64_value (x := i.cast .i64) (by omega)
    obtain ⟨hsigned, -⟩ | ⟨hsigned, -⟩ := i.cast_i64_value
    · omega
    · omega

theorem tc_slice_check_of_le {lo hi n : IntValue} (hlo : 0 ≤ lo.value)
    (hle : lo.value ≤ hi.value) (hhi : hi.value ≤ n.value) (hn : n.value < 2 ^ 63) :
    tc_slice_check (lo.cast .i64) (hi.cast .i64) (n.cast .u64) = .ok () := by
  have hlength : (n.cast .u64).value = n.value := IntValue.cast_u64_value (by omega)
  have hlow : (lo.cast .i64).value = lo.value := by
    obtain ⟨h, -⟩ | ⟨-, h⟩ := lo.cast_i64_value
    · exact h
    · omega
  have hhigh : (hi.cast .i64).value = hi.value := by
    obtain ⟨h, -⟩ | ⟨-, h⟩ := hi.cast_i64_value
    · exact h
    · omega
  have hcast := IntValue.cast_u64_value (x := hi.cast .i64) (by omega)
  unfold tc_slice_check
  rw [if_neg]
  rintro (h | h | h)
  · omega
  · omega
  · omega

theorem tc_slice_check_of_not_le {lo hi n : IntValue} (hn : 0 ≤ n.value)
    (h : ¬ (0 ≤ lo.value ∧ lo.value ≤ hi.value ∧ hi.value ≤ n.value)) :
    tc_slice_check (lo.cast .i64) (hi.cast .i64) (n.cast .u64) =
      .error (.panic "slice out of bounds") := by
  have hlength : (n.cast .u64).value = n.value := IntValue.cast_u64_value hn
  unfold tc_slice_check
  rw [if_pos]
  by_cases hlow : (lo.cast .i64).value < 0
  · exact Or.inl hlow
  by_cases horder : (hi.cast .i64).value < (lo.cast .i64).value
  · exact Or.inr (Or.inl horder)
  · right; right
    have hcast := IntValue.cast_u64_value (x := hi.cast .i64) (by omega)
    obtain ⟨hlo, -⟩ | ⟨hlo, -⟩ := lo.cast_i64_value
    · obtain ⟨hhi, -⟩ | ⟨hhi, -⟩ := hi.cast_i64_value
      · omega
      · omega
    · omega

/-! ## One step of the lowered code -/

/-- The lowered collection is `count` elements from `first` on, inside the storage. -/
structure Spans (s : Storage) (c : Collection) (first count : Int) : Prop where
  data : c.data = first
  length : c.length.value = count
  first_nonneg : 0 ≤ first
  count_nonneg : 0 ≤ count
  fits : first + count ≤ s.size

namespace Spans

variable {s : Storage} {c : Collection} {first count : Int}

theorem count_lt (h : Spans s c first count) : count < 2 ^ 63 := by
  have hsize := s.size_lt
  have hfits := h.fits
  have hfirst := h.first_nonneg
  omega

theorem index_of_lt (h : Spans s c first count) {i : IntValue} (hnonneg : 0 ≤ i.value)
    (hlt : i.value < count) :
    ∃ p, lowerIndex true s c i = .ok p ∧ (p : Int) = first + i.value := by
  have hfits := h.fits
  have hfirst := h.first_nonneg
  have hcount := h.count_lt
  obtain ⟨b, hcheck, hb⟩ :=
    tc_index_of_lt (n := c.length) hnonneg (h.length ▸ hlt) (h.length ▸ hcount)
  obtain ⟨p, haccess, hp⟩ : ∃ p, s.access c.data b.value = .ok p ∧ (p : Int) = c.data + b.value :=
    Storage.access_of_lt (by rw [h.data, hb]; omega) (by rw [h.data, hb]; omega)
  refine ⟨p, ?_, by rw [hp, h.data, hb]⟩
  change (tc_index (i.cast .i64) (c.length.cast .u64)).bind (s.access c.data ·.value) = .ok p
  rw [hcheck]
  exact haccess

theorem index_of_not_lt (h : Spans s c first count) {i : IntValue}
    (hout : ¬ (0 ≤ i.value ∧ i.value < count)) :
    lowerIndex true s c i = .error (.panic "index out of bounds") := by
  have hcheck : tc_index (i.cast .i64) (c.length.cast .u64) =
      .error (.panic "index out of bounds") := by
    apply tc_index_of_not_lt
    · rw [h.length]
      exact h.count_nonneg
    · rwa [h.length]
  change (tc_index (i.cast .i64) (c.length.cast .u64)).bind (s.access c.data ·.value) = _
  rw [hcheck]
  rfl

/-- The bounds that the code uses have the values that the slicing means. -/
theorem low_value (lo : Option IntValue) : (lo.getD zeroLiteral).value = lowBound lo := by
  cases lo <;> rfl

theorem high_value (h : Spans s c first count) (hi : Option IntValue) :
    (hi.getD c.length).value = highBound count hi := by
  cases hi
  · exact h.length
  · rfl

theorem slice_of_le (h : Spans s c first count) {lo hi : Option IntValue}
    (hlo : 0 ≤ lowBound lo) (hle : lowBound lo ≤ highBound count hi)
    (hhi : highBound count hi ≤ count) :
    ∃ w, lowerSlice true s c lo hi = .ok w ∧ w.kind = sliceKind c.kind ∧ w.length.type = .u64 ∧
      Spans s w (first + lowBound lo) (highBound count hi - lowBound lo) := by
  have hfits := h.fits
  have hfirst := h.first_nonneg
  have hlow := low_value lo
  have hhigh := h.high_value hi
  have hcheck : tc_slice_check ((lo.getD zeroLiteral).cast .i64) ((hi.getD c.length).cast .i64)
      (c.length.cast .u64) = .ok () := by
    apply tc_slice_check_of_le
    · rwa [hlow]
    · rwa [hlow, hhigh]
    · rwa [hhigh, h.length]
    · rw [h.length]
      exact h.count_lt
  have hadvance : s.advance c.data (lo.getD zeroLiteral).value = .ok (first + lowBound lo) := by
    rw [hlow, h.data]
    exact Storage.advance_of_le (by omega) (by omega)
  obtain ⟨d, hsub, hd⟩ := IntValue.sub_of_le (x := hi.getD c.length) (y := lo.getD zeroLiteral)
    (by omega) (by omega)
  have hcast : (d.cast .u64).value = highBound count hi - lowBound lo := by
    rw [IntValue.cast_u64_value (by omega), hd, hlow, hhigh]
  refine ⟨⟨sliceKind c.kind, first + lowBound lo, d.cast .u64⟩, ?_, rfl, rfl, ?_⟩
  · simp only [lowerSlice, if_true, hcheck, hadvance, hsub]
    rfl
  · constructor
    · rfl
    · exact hcast
    · omega
    · omega
    · omega

theorem slice_of_not_le (h : Spans s c first count) {lo hi : Option IntValue}
    (hout : ¬ (0 ≤ lowBound lo ∧ lowBound lo ≤ highBound count hi ∧
      highBound count hi ≤ count)) :
    lowerSlice true s c lo hi = .error (.panic "slice out of bounds") := by
  have hcheck : tc_slice_check ((lo.getD zeroLiteral).cast .i64) ((hi.getD c.length).cast .i64)
      (c.length.cast .u64) = .error (.panic "slice out of bounds") := by
    apply tc_slice_check_of_not_le
    · rw [h.length]
      exact h.count_nonneg
    · rwa [low_value, h.high_value, h.length]
  simp only [lowerSlice, if_true, hcheck]
  rfl

end Spans

/-! ## Chains -/

namespace Whole

variable {s : Storage}

theorem spans (v : Whole s) : Spans s v.value v.data v.length where
  data := rfl
  length := lengthValue_value v.kind v.length v.length_lt
  first_nonneg := Int.natCast_nonneg v.data
  count_nonneg := Int.natCast_nonneg v.length
  fits := by exact_mod_cast v.fits

end Whole

namespace Sliced

variable {s : Storage}

/-- A chain that stays inside what it slices gives the elements it means. -/
theorem lower_of_inBounds (v : Whole s) (a : Sliced) (h : a.InBounds v.length) :
    ∃ c, a.lower true s v.value = .ok c ∧
      Spans s c (v.data + a.skipped) (a.count v.length) := by
  induction a with
  | whole => exact ⟨v.value, rfl, by simpa only [skipped, count, add_zero] using v.spans⟩
  | slice a lo hi ih =>
    obtain ⟨ha, hlo, hle, hhi⟩ := h
    obtain ⟨c, hc, hspans⟩ := ih ha
    obtain ⟨w, hw, -, -, hslice⟩ := hspans.slice_of_le hlo hle hhi
    refine ⟨w, ?_, by simpa only [skipped, count, add_assoc] using hslice⟩
    rw [lower, hc]
    exact hw

theorem lower_of_not_inBounds (v : Whole s) (a : Sliced) (h : ¬ a.InBounds v.length) :
    a.lower true s v.value = .error (.panic "slice out of bounds") := by
  induction a with
  | whole => exact absurd trivial h
  | slice a lo hi ih =>
    by_cases ha : a.InBounds v.length
    · obtain ⟨c, hc, hspans⟩ := lower_of_inBounds v a ha
      rw [lower, hc]
      exact hspans.slice_of_not_le fun hin ↦ h ⟨ha, hin⟩
    · rw [lower, ih ha]
      rfl

theorem InBounds.bounds {n : ℕ} {a : Sliced} (h : a.InBounds n) :
    0 ≤ a.skipped ∧ 0 ≤ a.count n ∧ a.skipped + a.count n ≤ n := by
  induction a with
  | whole => simp [skipped, count]
  | slice a lo hi ih =>
    obtain ⟨ha, hlo, hle, hhi⟩ := h
    obtain ⟨hskipped, hcount, hfits⟩ := ih ha
    simp only [skipped, count]
    omega

/-- What a chain takes is a stretch of the list. -/
theorem elements_eq {α : Type} (l : List α) {a : Sliced} (h : a.InBounds l.length) :
    a.elements l = (l.drop a.skipped.toNat).take (a.count l.length).toNat := by
  induction a with
  | whole => simp [elements, skipped, count]
  | slice a lo hi ih =>
    obtain ⟨ha, hlo, hle, hhi⟩ := h
    obtain ⟨hskipped, hcount, hfits⟩ := ha.bounds
    have hlength : ((a.elements l).length : Int) = a.count l.length := by
      rw [ih ha, List.length_take, List.length_drop]
      omega
    have htake : min (highBound (a.count l.length) hi).toNat (a.count l.length).toNat =
        (highBound (a.count l.length) hi).toNat := by omega
    have hdrop : a.skipped.toNat + (lowBound lo).toNat = (a.skipped + lowBound lo).toNat := by
      omega
    have hrest : (highBound (a.count l.length) hi).toNat - (lowBound lo).toNat =
        (highBound (a.count l.length) hi - lowBound lo).toNat := by omega
    simp only [elements, skipped, count, hlength]
    rw [ih ha, List.take_take, htake, List.drop_take, List.drop_drop, hdrop, hrest]

theorem mem_of_mem_elements {α : Type} {l : List α} {a : Sliced} (h : a.InBounds l.length)
    {x : α} (hx : x ∈ a.elements l) : x ∈ l := by
  rw [elements_eq l h] at hx
  exact List.mem_of_mem_drop (List.mem_of_mem_take hx)

/-- The element of the chain at an index inside it. -/
theorem lowerElement_of_lt (v : Whole s) {a : Sliced} (h : a.InBounds v.length) {i : IntValue}
    (hnonneg : 0 ≤ i.value) (hlt : i.value < a.count v.length) :
    ∃ p, a.lowerElement true s v.value i = .ok p ∧
      (a.elements v.positions)[i.value.toNat]? = some (p : ℕ) := by
  obtain ⟨c, hc, hspans⟩ := lower_of_inBounds v a h
  obtain ⟨p, hp, hvalue⟩ := hspans.index_of_lt hnonneg hlt
  obtain ⟨hskipped, hcount, hfits⟩ := h.bounds
  have hlength : v.positions.length = v.length := List.length_range'
  refine ⟨p, ?_, ?_⟩
  · rw [lowerElement, hc]
    exact hp
  · rw [elements_eq _ (hlength.symm ▸ h), hlength, List.getElem?_take_of_lt (by omega),
      List.getElem?_drop, Whole.positions, List.getElem?_range' (by omega)]
    congr 1
    omega

theorem lowerElement_of_not_lt (v : Whole s) {a : Sliced} {i : IntValue}
    (h : ¬ (a.InBounds v.length ∧ 0 ≤ i.value ∧ i.value < a.count v.length)) :
    Panics (a.lowerElement true s v.value i) := by
  by_cases ha : a.InBounds v.length
  · obtain ⟨c, hc, hspans⟩ := lower_of_inBounds v a ha
    refine ⟨"index out of bounds", ?_⟩
    rw [lowerElement, hc]
    exact hspans.index_of_not_lt fun hin ↦ h ⟨ha, hin⟩
  · refine ⟨"slice out of bounds", ?_⟩
    rw [lowerElement, lower_of_not_inBounds v a ha]
    rfl

theorem not_panics_ok {α : Type} (x : α) : ¬ Panics (.ok x : Except Trap α) := by
  rintro ⟨message, h⟩
  cases h

theorem panics_lower_iff (v : Whole s) (a : Sliced) :
    Panics (a.lower true s v.value) ↔ ¬ a.InBounds v.length := by
  constructor
  · intro hpanics ha
    obtain ⟨c, hc, -⟩ := lower_of_inBounds v a ha
    exact not_panics_ok c (hc ▸ hpanics)
  · intro ha
    exact ⟨_, lower_of_not_inBounds v a ha⟩

theorem panics_lowerElement_iff (v : Whole s) (a : Sliced) (i : IntValue) :
    Panics (a.lowerElement true s v.value i) ↔
      ¬ (a.InBounds v.length ∧ 0 ≤ i.value ∧ i.value < a.count v.length) := by
  constructor
  · rintro hpanics ⟨ha, hnonneg, hlt⟩
    obtain ⟨p, hp, -⟩ := lowerElement_of_lt v ha hnonneg hlt
    exact not_panics_ok p (hp ▸ hpanics)
  · exact lowerElement_of_not_lt v

theorem lower_slice {v : Whole s} {a : Sliced} {c : Collection} {lo hi : Option IntValue}
    (h : a.lower true s v.value = .ok c) :
    (a.slice lo hi).lower true s v.value = lowerSlice true s c lo hi := by
  rw [lower, h]
  rfl

/-- A slice of a slice is the slice of the original with both lower bounds added up. -/
theorem lower_slice_slice (v : Whole s) (a : Sliced) {lo hi lo' hi' lo'' hi'' : Option IntValue}
    {w : Collection} (hlow : lowBound lo'' = lowBound lo + lowBound lo')
    (hhigh : highBound (a.count v.length) hi'' =
      lowBound lo + highBound ((a.slice lo hi).count v.length) hi')
    (hw : ((a.slice lo hi).slice lo' hi').lower true s v.value = .ok w) :
    (a.slice lo'' hi'').lower true s v.value = .ok w := by
  have hin : ((a.slice lo hi).slice lo' hi').InBounds v.length := by
    by_contra hout
    exact not_panics_ok w (hw ▸ (panics_lower_iff v _).2 hout)
  obtain ⟨⟨ha, hlo, hle, hhi⟩, hlo', hle', hhi'⟩ := hin
  obtain ⟨c, hc, hspans⟩ := lower_of_inBounds v a ha
  obtain ⟨x, hx, hxkind, -, hxspans⟩ := hspans.slice_of_le hlo hle hhi
  obtain ⟨y, hy, hykind, hytype, hyspans⟩ := hxspans.slice_of_le hlo' hle' hhi'
  have hwy : w = y := by
    rw [lower_slice (lower_slice hc |>.trans hx), hy] at hw
    exact (Except.ok.inj hw).symm
  simp only [count] at hhigh hle' hhi'
  obtain ⟨z, hz, hzkind, hztype, hzspans⟩ :=
    hspans.slice_of_le (show 0 ≤ lowBound lo'' by omega)
      (show lowBound lo'' ≤ highBound _ hi'' by omega) (by omega)
  have hzy : z = y := by
    have hkind : z.kind = y.kind := by rw [hzkind, hykind, hxkind, sliceKind_sliceKind]
    have hdata : z.data = y.data := by
      rw [hzspans.data, hyspans.data, hlow]
      omega
    have hvalue : z.length.value = y.length.value := by
      rw [hzspans.length, hyspans.length, hlow, hhigh]
      omega
    exact Collection.ext hkind hdata (IntValue.ext (hztype.trans hytype.symm) hvalue)
  rw [lower_slice hc, hz, hzy, hwy]

end Sliced

/-- With the checks on, an indexing at the end of a chain of slicings panics exactly when
one of them leaves what it is applied to, and else accesses the element it means; two
slicings in a row denote what one slicing with the bounds added up denotes. -/
theorem checked_access (s : Storage) (v : Whole s) (a : Sliced) (i : IntValue) :
    (Panics (a.lowerElement true s v.value i) ∨
      ∃ p, a.lowerElement true s v.value i = .ok p ∧ (p : ℕ) ∈ v.positions ∧
        (a.elements v.positions)[i.value.toNat]? = some (p : ℕ)) ∧
    (Panics (a.lower true s v.value) ↔ ¬ a.InBounds v.length) ∧
    (Panics (a.lowerElement true s v.value i) ↔
      ¬ (a.InBounds v.length ∧ 0 ≤ i.value ∧ i.value < a.count v.length)) ∧
    ∀ (lo hi lo' hi' lo'' hi'' : Option IntValue) (w : Collection),
      lowBound lo'' = lowBound lo + lowBound lo' →
      highBound (a.count v.length) hi'' =
        lowBound lo + highBound ((a.slice lo hi).count v.length) hi' →
      ((a.slice lo hi).slice lo' hi').lower true s v.value = .ok w →
      (a.slice lo'' hi'').lower true s v.value = .ok w := by
  refine ⟨?_, a.panics_lower_iff v, a.panics_lowerElement_iff v i, ?_⟩
  · by_cases hin : a.InBounds v.length ∧ 0 ≤ i.value ∧ i.value < a.count v.length
    · obtain ⟨ha, hnonneg, hlt⟩ := hin
      obtain ⟨p, hp, helement⟩ := Sliced.lowerElement_of_lt v ha hnonneg hlt
      have hlength : v.positions.length = v.length := List.length_range'
      have hmem : (p : ℕ) ∈ v.positions :=
        Sliced.mem_of_mem_elements (hlength.symm ▸ ha) (List.mem_of_getElem? helement)
      exact Or.inr ⟨p, hp, hmem, helement⟩
    · exact Or.inl (Sliced.lowerElement_of_not_lt v hin)
  · intro lo hi lo' hi' lo'' hi'' w hlow hhigh hw
    exact a.lower_slice_slice v hlow hhigh hw

/-- `s[2:8][1:4]` and `s[3:6]` of ten elements, with bounds of three types. -/
theorem checked_access_ten :
    let s : Storage := ⟨10, 4, by decide, by decide⟩
    let v : Whole s := ⟨.array, 0, 10, by decide⟩
    let u8 : IntType := ⟨false, 8, by decide, by decide⟩
    let slice := Sliced.slice .whole (some ⟨u8, 3, by decide⟩) (some ⟨.i64, 6, by decide⟩)
    ∃ w, slice.lower true s v.value = .ok w := by
  intro s v u8 slice
  obtain ⟨w, hw, -⟩ := Sliced.lower_of_inBounds v
    (.slice (.slice .whole (some ⟨u8, 2, by decide⟩) (some ⟨.i32, 8, by decide⟩))
      (some ⟨.i64, 1, by decide⟩) (some ⟨.u64, 4, by decide⟩))
    (by simp [Sliced.InBounds, Sliced.count, lowBound, highBound, v])
  exact ⟨w, (checked_access s v .whole ⟨.i32, 0, by decide⟩).2.2.2 _ _ _ _ _ _ w rfl rfl hw⟩

end TinyCPlus.Compiler
