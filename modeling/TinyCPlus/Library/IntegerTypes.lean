import Mathlib.Algebra.Order.Group.Int
import Mathlib.Data.Int.Basic
import Mathlib.Data.Nat.Basic
import Mathlib.Tactic.NormNum

/-!
# Integer types of C

The integer types of C up to 64 bits, their conversions and the type in which two
operands are subtracted.  A value carries the proof that its type holds it.
-/

namespace TinyCPlus.Library

/-- An integer type of C. -/
structure IntType where
  signed : Bool
  bits : Nat
  bits_pos : 0 < bits
  bits_le : bits ≤ 64
deriving DecidableEq

namespace IntType

def i32 : IntType := ⟨true, 32, by decide, by decide⟩
def i64 : IntType := ⟨true, 64, by decide, by decide⟩
def u64 : IntType := ⟨false, 64, by decide, by decide⟩

/-- The least value of the type. -/
def least (t : IntType) : Int := if t.signed then -2 ^ (t.bits - 1) else 0

/-- The greatest value of the type. -/
def greatest (t : IntType) : Int := if t.signed then 2 ^ (t.bits - 1) - 1 else 2 ^ t.bits - 1

/-- The type represents this integer. -/
def Holds (t : IntType) (v : Int) : Prop := t.least ≤ v ∧ v ≤ t.greatest

instance (t : IntType) (v : Int) : Decidable (t.Holds v) :=
  inferInstanceAs (Decidable (_ ∧ _))

/-- The integer that a cast to the type makes of `v`. -/
def wrap (t : IntType) (v : Int) : Int :=
  if t.signed then v.bmod (2 ^ t.bits) else v % 2 ^ t.bits

theorem two_pow_bits (t : IntType) : (2 : Int) ^ t.bits = 2 * 2 ^ (t.bits - 1) := by
  have hpos := t.bits_pos
  rw [← pow_succ']
  congr 1
  omega

theorem half_pos (t : IntType) : (0 : Int) < 2 ^ (t.bits - 1) := by positivity

theorem least_nonpos (t : IntType) : t.least ≤ 0 := by
  have hpos := t.half_pos
  unfold least
  split <;> omega

theorem holds_wrap (t : IntType) (v : Int) : t.Holds (t.wrap v) := by
  have hpos := t.half_pos
  have hdouble := t.two_pow_bits
  unfold Holds wrap least greatest
  by_cases hsigned : t.signed
  · have hcast : ((2 ^ t.bits : Nat) : Int) = 2 ^ t.bits := by push_cast; rfl
    have hnat : 0 < 2 ^ t.bits := by positivity
    have hle := Int.le_bmod (x := v) hnat
    have hlt := Int.bmod_lt (x := v) hnat
    simp only [hsigned, if_true]
    omega
  · have hnonneg := Int.emod_nonneg v (show (2 : Int) ^ t.bits ≠ 0 by omega)
    have hlt := Int.emod_lt_of_pos v (show (0 : Int) < 2 ^ t.bits by omega)
    simp only [hsigned]
    constructor
    · exact hnonneg
    · exact Int.le_sub_one_of_lt hlt

/-- A cast keeps what the type holds. -/
theorem wrap_of_holds {t : IntType} {v : Int} (h : t.Holds v) : t.wrap v = v := by
  have hdouble := t.two_pow_bits
  unfold Holds least greatest at h
  unfold wrap
  by_cases hsigned : t.signed
  · simp only [hsigned, if_true] at h ⊢
    have hcast : ((2 ^ t.bits : Nat) : Int) = 2 ^ t.bits := by push_cast; rfl
    apply Int.bmod_eq_of_le
    · omega
    · omega
  · simp only [hsigned] at h ⊢
    exact Int.emod_eq_of_lt h.1 (Int.lt_of_le_sub_one h.2)

/-- The integer promotions: everything below `int` becomes `int`. -/
def promote (t : IntType) : IntType := if t.bits < 32 then i32 else t

/-- The usual arithmetic conversions of two promoted types. -/
def converted (s t : IntType) : IntType :=
  if s.signed = t.signed then if s.bits < t.bits then t else s
  else if s.signed then if s.bits ≤ t.bits then t else s
  else if t.bits ≤ s.bits then s else t

/-- The type in which C subtracts values of these types. -/
def common (s t : IntType) : IntType := converted (promote s) (promote t)

theorem greatest_le_of_bits {s t : IntType} (hsigned : s.signed = t.signed)
    (hbits : s.bits ≤ t.bits) : s.greatest ≤ t.greatest := by
  have hhalf : (2 : Int) ^ (s.bits - 1) ≤ 2 ^ (t.bits - 1) :=
    pow_le_pow_right₀ (by decide) (by omega)
  have hfull : (2 : Int) ^ s.bits ≤ 2 ^ t.bits := pow_le_pow_right₀ (by decide) hbits
  unfold greatest
  rw [hsigned]
  split <;> omega

theorem greatest_le_of_unsigned {s t : IntType} (hs : s.signed = true) (ht : t.signed = false)
    (hbits : s.bits ≤ t.bits) : s.greatest ≤ t.greatest := by
  have hhalf : (2 : Int) ^ (s.bits - 1) ≤ 2 ^ t.bits :=
    pow_le_pow_right₀ (by decide) (by omega)
  simp only [greatest, hs, ht, if_true]
  exact sub_le_sub_right hhalf 1

theorem greatest_le_of_wider {s t : IntType} (hs : s.signed = false) (ht : t.signed = true)
    (hbits : s.bits < t.bits) : s.greatest ≤ t.greatest := by
  have hhalf : (2 : Int) ^ s.bits ≤ 2 ^ (t.bits - 1) :=
    pow_le_pow_right₀ (by decide) (by omega)
  simp only [greatest, hs, ht, if_true]
  exact sub_le_sub_right hhalf 1

theorem greatest_le_promote (t : IntType) : t.greatest ≤ t.promote.greatest := by
  unfold promote
  split
  · rename_i hbits
    cases hsigned : t.signed
    · exact greatest_le_of_wider hsigned rfl hbits
    · exact greatest_le_of_bits hsigned hbits.le
  · exact le_refl _

theorem converted_comm_greatest (s t : IntType) :
    s.greatest ≤ (converted s t).greatest ∧ t.greatest ≤ (converted s t).greatest := by
  unfold converted
  cases hs : s.signed <;> cases ht : t.signed
  · -- both unsigned
    simp only [if_true]
    split
    · exact ⟨greatest_le_of_bits (hs.trans ht.symm) (by omega), le_refl _⟩
    · exact ⟨le_refl _, greatest_le_of_bits (ht.trans hs.symm) (by omega)⟩
  · simp only [Bool.false_eq_true, if_false]
    split
    · exact ⟨le_refl _, greatest_le_of_unsigned ht hs (by omega)⟩
    · exact ⟨greatest_le_of_wider hs ht (by omega), le_refl _⟩
  · simp only [Bool.true_eq_false, if_false, if_true]
    split
    · exact ⟨greatest_le_of_unsigned hs ht (by omega), le_refl _⟩
    · exact ⟨le_refl _, greatest_le_of_wider ht hs (by omega)⟩
  · simp only [if_true]
    split
    · exact ⟨greatest_le_of_bits (hs.trans ht.symm) (by omega), le_refl _⟩
    · exact ⟨le_refl _, greatest_le_of_bits (ht.trans hs.symm) (by omega)⟩

/-- The common type holds every natural number that the left type holds. -/
theorem holds_common_left {s : IntType} (t : IntType) {v : Int} (hnonneg : 0 ≤ v)
    (h : s.Holds v) : (common s t).Holds v := by
  have hmax := (converted_comm_greatest (promote s) (promote t)).1
  constructor
  · exact (least_nonpos _).trans hnonneg
  · exact h.2.trans ((greatest_le_promote s).trans hmax)

theorem holds_common_right (s : IntType) {t : IntType} {v : Int} (hnonneg : 0 ≤ v)
    (h : t.Holds v) : (common s t).Holds v := by
  have hmax := (converted_comm_greatest (promote s) (promote t)).2
  constructor
  · exact (least_nonpos _).trans hnonneg
  · exact h.2.trans ((greatest_le_promote t).trans hmax)

/-- No type leaves the range from `-2 ^ 63` to `2 ^ 64`. -/
theorem bounds_of_holds {t : IntType} {v : Int} (h : t.Holds v) : -2 ^ 63 ≤ v ∧ v < 2 ^ 64 := by
  have hbits := t.bits_le
  have hhalf : (2 : Int) ^ (t.bits - 1) ≤ 2 ^ 63 := pow_le_pow_right₀ (by decide) (by omega)
  have hfull : (2 : Int) ^ t.bits ≤ 2 ^ 64 := pow_le_pow_right₀ (by decide) hbits
  unfold Holds least greatest at h
  split at h
  · constructor
    · omega
    · omega
  · constructor
    · omega
    · omega

theorem holds_of_le {t : IntType} {v w : Int} (hnonneg : 0 ≤ v) (hle : v ≤ w)
    (h : t.Holds w) : t.Holds v :=
  ⟨(least_nonpos t).trans hnonneg, hle.trans h.2⟩

end IntType

/-- An integer of a C type. -/
@[ext] structure IntValue where
  type : IntType
  value : Int
  holds : type.Holds value

namespace IntValue

/-- `(t)x` -/
def cast (t : IntType) (x : IntValue) : IntValue := ⟨t, t.wrap x.value, t.holds_wrap _⟩

/-- `x - y`; signed arithmetic that leaves its type has no value. -/
def sub (x y : IntValue) : Option IntValue :=
  let t := IntType.common x.type y.type
  let d := t.wrap x.value - t.wrap y.value
  if t.signed ∧ ¬ t.Holds d then none else some ⟨t, t.wrap d, t.holds_wrap d⟩

/-- A cast to `i64` keeps the value or makes a large one negative. -/
theorem cast_i64_value (x : IntValue) :
    (x.cast .i64).value = x.value ∧ x.value < 2 ^ 63 ∨
      (x.cast .i64).value < 0 ∧ 2 ^ 63 ≤ x.value := by
  obtain ⟨hlow, hhigh⟩ := IntType.bounds_of_holds x.holds
  by_cases hlt : x.value < 2 ^ 63
  · have hholds : IntType.i64.Holds x.value := ⟨hlow, Int.le_sub_one_of_lt hlt⟩
    exact Or.inl ⟨IntType.wrap_of_holds hholds, hlt⟩
  · refine Or.inr ⟨?_, by omega⟩
    change x.value.bmod (2 ^ 64) < 0
    have hmod : x.value % ((2 ^ 64 : ℕ) : Int) = x.value :=
      Int.emod_eq_of_lt (by omega) (by push_cast; omega)
    rw [Int.bmod_def, hmod]
    push_cast
    omega

theorem cast_u64_value {x : IntValue} (hnonneg : 0 ≤ x.value) :
    (x.cast .u64).value = x.value := by
  have hlt := (IntType.bounds_of_holds x.holds).2
  have hholds : IntType.u64.Holds x.value := ⟨hnonneg, Int.le_sub_one_of_lt hlt⟩
  exact IntType.wrap_of_holds hholds

/-- Natural numbers in order subtract as they do in mathematics, whatever their types. -/
theorem sub_of_le {x y : IntValue} (hnonneg : 0 ≤ y.value) (hle : y.value ≤ x.value) :
    ∃ d, sub x y = some d ∧ d.value = x.value - y.value := by
  have hx := IntType.holds_common_left y.type (hnonneg.trans hle) x.holds
  have hy := IntType.holds_common_right x.type hnonneg y.holds
  have hd : (IntType.common x.type y.type).Holds (x.value - y.value) :=
    IntType.holds_of_le (by omega) (by omega) hx
  unfold sub
  simp only [IntType.wrap_of_holds hx, IntType.wrap_of_holds hy, IntType.wrap_of_holds hd, hd,
    not_true_eq_false, and_false, if_false]
  exact ⟨_, rfl, rfl⟩

end IntValue

end TinyCPlus.Library
