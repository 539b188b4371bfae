import TinyCPlus.Compiler.CaseLabels
import TinyCPlus.Compiler.PrintedTokens
import TinyCPlus.Library.IntegerTypes

/-!
# Readings of an integer literal

`check_expr` reads a literal without `0x` in the base 10, the lengths of arrays, the values of
enum members and the labels of a switch are read in the base 0, and the emitted constant is read
by the C compiler.  A leading zero is a decimal digit to the first and starts an octal number for
all the others.
-/

namespace TinyCPlus.Compiler.IntegerReadings

open CaseLabels (hexPrefixed caseNumber constantValue isConstant)
open Library (IntType)

/-! ## The readings -/

/-- The number that `strtoull` finds in front of a text, however large. -/
def digitsRead (base : ℕ) (s : List Char) : ℕ :=
  if hexPrefixed s ∧ base ≠ 10 then C11.hexadecimalValue ((s.drop 2).takeWhile isHexDigit)
  else if base = 16 then C11.hexadecimalValue (s.takeWhile isHexDigit)
  else if base = 0 ∧ s.head? = some '0' then
    Nat.ofDigitChars 8 (s.takeWhile C11.isOctalDigit) 0
  else Nat.ofDigitChars 10 (s.takeWhile Char.isDigit) 0

/-- `strtoull` sets `errno`. -/
def rangeError (base : ℕ) (s : List Char) : Bool := 2 ^ 64 ≤ digitsRead base s

/-- `check_expr` on a literal: its value. -/
def literalValue (text : List Char) : Except String ℕ :=
  let base := if hexPrefixed text then 16 else 10
  if rangeError base text then .error "integer literal is out of range"
  else .ok (CaseLabels.strtoull base text)

/-- The type that `check_expr` chooses by the value. -/
def literalType (v : ℕ) : IntType :=
  if v ≤ 2147483647 then .i32 else if v ≤ 9223372036854775807 then .i64 else .u64

/-- The length behind a type in `parse_type`. -/
def arrayLength (n : Token) : Except String ℕ :=
  if n.kind ≠ .int then .error "array length must be an integer literal"
  else
    let len := CaseLabels.strtoull 0 n.text
    if rangeError 0 n.text ∨ len = 0 ∨ 10000000 < len then
      .error "array length must be between 1 and 10000000"
    else .ok len

/-- The length behind a name in `variable`, which does not look at `errno`. -/
def variableLength (t : Token) : Except String ℕ :=
  let count := CaseLabels.strtoull 0 t.text
  if t.kind ≠ .int ∨ count = 0 ∨ 10000000 < count then .error "invalid array length"
  else .ok count

/-- The value of an enum member in `declaration`, from the token behind the sign. -/
def enumValue (minus : Bool) (number : Token) : Except String ℤ :=
  if number.kind ≠ .int then .error "enum value requires an integer literal"
  else
    let numberValue := CaseLabels.strtoull 0 number.text
    if rangeError 0 number.text ∨ (if minus then 2147483648 else 2147483647) < numberValue then
      .error "enum value outside i32 range"
    else
      let next : ℤ := numberValue * if minus then -1 else 1
      if 2147483647 < next then .error "enum value outside i32 range" else .ok next

/-- The number of a case label, which is compared once the label is checked. -/
def caseLabel (text : List Char) : Except String ℕ := do
  let _ ← literalValue text
  return caseNumber text

/-- The suffix of the constant that `expression` emits. -/
def suffix (t : IntType) : List Char :=
  if t = .u64 then "ULL".toList else if t = .i64 then "LL".toList else []

/-- The emitted constant. -/
def constant (text : List Char) : Except String (List Char) := do
  let v ← literalValue text
  return text ++ suffix (literalType v)

def isSuffixChar (c : Char) : Bool := c = 'U' || c = 'L'

theorem ending_lawfulBEq : LawfulBEq (List Char) := inferInstance

attribute [local instance] ending_lawfulBEq

/-- C's value of a constant with one of the suffixes above; `none` is a diagnostic of the C
compiler. -/
def readConstant (s : List Char) : Option ℕ :=
  let digits := s.takeWhile fun c ↦ !isSuffixChar c
  let ending := s.dropWhile fun c ↦ !isSuffixChar c
  if isConstant digits ∧ ending ∈ ["".toList, "LL".toList, "ULL".toList] ∧
      constantValue digits < 2 ^ 64 then
    some (constantValue digits)
  else none

/-- All readings of the literal that are no diagnostic give `v`. -/
structure Agree (text : List Char) (v : ℕ) : Prop where
  value : ∀ n, literalValue text = .ok n → n = v
  arrayLength : ∀ n, arrayLength ⟨.int, text⟩ = .ok n → n = v
  variableLength : ∀ n, variableLength ⟨.int, text⟩ = .ok n → n = v
  enumValue : ∀ minus m, enumValue minus ⟨.int, text⟩ = .ok m → m = if minus then -(v : ℤ) else v
  caseLabel : ∀ n, caseLabel text = .ok n → n = v
  constant : ∀ s n, constant text = .ok s → readConstant s = some n → n = v

def OneValue (text : List Char) : Prop := ∃ v, Agree text v

/-- A zero is followed by another digit. -/
def leadingZero : List Char → Bool
  | '0' :: c :: _ => c.isDigit
  | _ => false

def decimalValue (text : List Char) : ℕ := Nat.ofDigitChars 10 text 0

/-! ## The digits of a literal -/

/-- The two forms of an integer literal. -/
theorem IntLiteral_form (t : IntLiteral) :
    (∃ x ds, (x = 'x' ∨ x = 'X') ∧ ds ≠ [] ∧ t.text = '0' :: x :: ds ∧
      ∀ d ∈ ds, isHexDigit d = true) ∨
    (t.text ≠ [] ∧ ∀ d ∈ t.text, d.isDigit = true) := by
  obtain ⟨hnumber, c, r, htext, -⟩ := Tree.IntLiteral_reads t
  obtain ⟨hread, -⟩ := (number_eq_some_iff (t := ⟨.int, t.text⟩)).mp hnumber
  split at hread
  · rename_i hhex
    obtain ⟨x, ds, hne, heq, hall, -⟩ :=
      (hexadecimal_eq_some_iff (t := ⟨.int, t.text⟩) hhex).mp hread
    injection heq with _ heq
    rw [heq] at hhex
    have hx : (x == 'x' || x == 'X') = true := hhex
    simp only [Bool.or_eq_true, beq_iff_eq] at hx
    exact .inl ⟨x, ds, hx, hne, heq, hall⟩
  · obtain ⟨whole, point, power, heq, hparts⟩ :=
      (decimal_eq_some_iff (t := ⟨.int, t.text⟩)).mp hread
    injection heq with hkind heq
    by_cases hint : point = [] ∧ power = []
    · obtain ⟨rfl, rfl⟩ := hint
      simp only [List.append_nil] at heq
      refine .inr ⟨by simp [htext], ?_⟩
      rw [heq]
      exact hparts.digits
    · rw [if_neg hint] at hkind
      cases hkind

theorem le_ofDigitChars (ds : List Char) (n : ℕ) : n ≤ Nat.ofDigitChars 10 ds n := by
  induction ds generalizing n with
  | nil => simp
  | cons d ds ih =>
      have hstep := ih (10 * n + (d.toNat - '0'.toNat))
      rw [Nat.ofDigitChars_cons]
      omega

/-- How a number read in the base 8 stays behind one read in the base 10 once this has two
octal digits. -/
def Behind (m n : ℕ) : Prop := (m < n ∧ 8 ≤ n) ∨ (m = n ∧ n < 8)

theorem isOctalDigit_iff {d : Char} (hd : d.isDigit = true) :
    C11.isOctalDigit d = true ↔ d.toNat - '0'.toNat < 8 := by
  simp only [Char.isDigit, Bool.and_eq_true, decide_eq_true_eq] at hd
  simp only [C11.isOctalDigit, Bool.and_eq_true, decide_eq_true_eq]
  simp only [Char.le_def, UInt32.le_iff_toNat_le, ge_iff_le] at hd ⊢
  simp only [Char.toNat, Char.reduceVal, UInt32.reduceToNat] at hd ⊢
  omega

theorem Behind.step {m n e : ℕ} (h : Behind m n) (he : e < 8) :
    Behind (8 * m + e) (10 * n + e) := by
  unfold Behind at h ⊢
  omega

/-- The octal digits in front of decimal digits, read on from `m`, against all of them, read on
from `n`. -/
theorem behind_ofDigitChars {ds : List Char} (hds : ∀ d ∈ ds, d.isDigit = true) {m n : ℕ}
    (h : Behind m n) :
    Behind (Nat.ofDigitChars 8 (ds.takeWhile C11.isOctalDigit) m) (Nat.ofDigitChars 10 ds n) := by
  induction ds generalizing m n with
  | nil => simpa using h
  | cons d ds ih =>
      have hd := isOctalDigit_iff (hds d List.mem_cons_self)
      have hrest : ∀ d ∈ ds, d.isDigit = true := fun d hd ↦ hds d (List.mem_cons_of_mem _ hd)
      by_cases hoctal : C11.isOctalDigit d = true
      · rw [List.takeWhile_cons_of_pos hoctal, Nat.ofDigitChars_cons, Nat.ofDigitChars_cons]
        exact ih hrest (h.step (hd.mp hoctal))
      · -- an `8` or a `9` ends the octal number
        have height : 8 ≤ d.toNat - '0'.toNat := by
          have hlt := mt hd.mpr hoctal
          omega
        have hlast := le_ofDigitChars ds (10 * n + (d.toNat - '0'.toNat))
        rw [List.takeWhile_cons_of_neg hoctal, Nat.ofDigitChars_nil, Nat.ofDigitChars_cons]
        unfold Behind at h ⊢
        omega

/-! ## What the readings have in common -/

theorem strtoull_eq (base : ℕ) (s : List Char) :
    CaseLabels.strtoull base s = min (digitsRead base s) (2 ^ 64 - 1) := rfl

theorem strtoull_of_not_rangeError {base : ℕ} {s : List Char} (h : rangeError base s = false) :
    CaseLabels.strtoull base s = digitsRead base s := by
  simp only [rangeError, decide_eq_false_iff_not] at h
  rw [strtoull_eq]
  omega

theorem strtoull_of_le {base : ℕ} {s : List Char} (h : CaseLabels.strtoull base s ≤ 10000000) :
    CaseLabels.strtoull base s = digitsRead base s := by
  rw [strtoull_eq] at h ⊢
  omega

/-- The base in which `check_expr` reads a literal. -/
def checkBase (text : List Char) : ℕ := if hexPrefixed text then 16 else 10

theorem literalValue_ok {text : List Char} {n : ℕ} (h : literalValue text = .ok n) :
    rangeError (checkBase text) text = false ∧ n = digitsRead (checkBase text) text := by
  change (if rangeError (checkBase text) text then _ else Except.ok (CaseLabels.strtoull (checkBase text) text))
    = Except.ok n at h
  split at h
  · cases h
  · rename_i hrange
    injection h with h
    have hfalse := Bool.eq_false_iff.mpr hrange
    exact ⟨hfalse, by rw [← h, strtoull_of_not_rangeError hfalse]⟩

theorem arrayLength_ok {text : List Char} {n : ℕ} (h : arrayLength ⟨.int, text⟩ = .ok n) :
    n = digitsRead 0 text := by
  simp only [arrayLength, ne_eq, not_true_eq_false, if_false] at h
  split at h
  · cases h
  · rename_i hrange
    injection h with h
    simp only [not_or, Bool.not_eq_true] at hrange
    rw [← h, strtoull_of_not_rangeError hrange.1]

theorem variableLength_ok {text : List Char} {n : ℕ} (h : variableLength ⟨.int, text⟩ = .ok n) :
    n = digitsRead 0 text := by
  simp only [variableLength, ne_eq, not_true_eq_false, false_or] at h
  split at h
  · cases h
  · rename_i hrange
    injection h with h
    simp only [not_or, not_lt] at hrange
    rw [← h, strtoull_of_le hrange.2]

theorem enumValue_ok {minus : Bool} {text : List Char} {m : ℤ}
    (h : enumValue minus ⟨.int, text⟩ = .ok m) :
    m = if minus then -(digitsRead 0 text : ℤ) else (digitsRead 0 text : ℤ) := by
  simp only [enumValue, ne_eq, not_true_eq_false, if_false] at h
  generalize (if minus = true then 2147483648 else 2147483647) = limit at h
  generalize hsign : (if minus = true then (-1 : ℤ) else 1) = sign at h
  split at h
  · cases h
  · rename_i hrange
    simp only [not_or, Bool.not_eq_true] at hrange
    split at h
    · cases h
    · injection h with h
      rw [← h, ← hsign, strtoull_of_not_rangeError hrange.1]
      cases minus
      · simp
      · simp

theorem caseNumber_eq (text : List Char) :
    caseNumber text = CaseLabels.strtoull (if hexPrefixed text then 16 else 0) text := by
  unfold caseNumber
  split <;> rfl

theorem caseLabel_ok {text : List Char} {n : ℕ} (h : caseLabel text = .ok n) :
    ∃ v, literalValue text = .ok v ∧ n = caseNumber text := by
  cases hvalue : literalValue text with
  | error e =>
      rw [caseLabel, hvalue] at h
      cases h
  | ok v =>
      rw [caseLabel, hvalue] at h
      injection h with h
      exact ⟨v, rfl, h.symm⟩

theorem constant_ok {text s : List Char} (h : constant text = .ok s) :
    ∃ v, literalValue text = .ok v ∧ s = text ++ suffix (literalType v) := by
  cases hvalue : literalValue text with
  | error e =>
      rw [constant, hvalue] at h
      cases h
  | ok v =>
      rw [constant, hvalue] at h
      injection h with h
      exact ⟨v, rfl, h.symm⟩

theorem isSuffixChar_suffix (t : IntType) : ∀ c ∈ (suffix t).head?, isSuffixChar c = true := by
  unfold suffix
  split_ifs
  · simp [isSuffixChar]
  · simp [isSuffixChar]
  · simp

/-- C takes the suffix off again. -/
theorem readConstant_suffix {text : List Char} (hdigits : ∀ c ∈ text, isSuffixChar c = false)
    (t : IntType) {n : ℕ} (h : readConstant (text ++ suffix t) = some n) :
    isConstant text ∧ n = constantValue text := by
  have hhead := isSuffixChar_suffix t
  have htake : (text ++ suffix t).takeWhile (fun c ↦ !isSuffixChar c) = text := by
    rw [List.takeWhile_append_of_pos (by simpa using hdigits)]
    cases hsuffix : suffix t with
    | nil => simp
    | cons c s =>
        rw [hsuffix] at hhead
        simp [hhead c rfl]
  simp only [readConstant, htake] at h
  split at h
  · rename_i hconstant
    injection h with h
    exact ⟨hconstant.1, h.symm⟩
  · cases h

theorem isSuffixChar_hexDigit {c : Char} (h : isHexDigit c = true) : isSuffixChar c = false := by
  rw [Bool.eq_false_iff]
  intro hc
  simp only [isSuffixChar, Bool.or_eq_true, decide_eq_true_eq] at hc
  rcases hc with rfl | rfl
  · cases h
  · cases h

theorem isSuffixChar_text (t : IntLiteral) : ∀ c ∈ t.text, isSuffixChar c = false := by
  rcases IntLiteral_form t with ⟨x, ds, hx, -, htext, hall⟩ | ⟨-, hall⟩
  · intro c hc
    rw [htext] at hc
    rcases List.mem_cons.mp hc with rfl | hc
    · decide
    · rcases List.mem_cons.mp hc with rfl | hc
      · rcases hx with rfl | rfl
        · decide
        · decide
      · exact isSuffixChar_hexDigit (hall c hc)
  · intro c hc
    refine isSuffixChar_hexDigit ?_
    simp [isHexDigit, hall c hc]

/-! ## When they agree -/

/-- The readings agree where the two bases and C read one number. -/
theorem agree_of_reads (t : IntLiteral)
    (hreads : digitsRead (checkBase t.text) t.text = digitsRead 0 t.text)
    (hconstant : isConstant t.text → constantValue t.text = digitsRead 0 t.text) :
    Agree t.text (digitsRead 0 t.text) where
  value n h := by rw [(literalValue_ok h).2, hreads]
  arrayLength n h := arrayLength_ok h
  variableLength n h := variableLength_ok h
  enumValue minus m h := enumValue_ok h
  caseLabel n h := by
    obtain ⟨v, hv, rfl⟩ := caseLabel_ok h
    obtain ⟨hrange, -⟩ := literalValue_ok hv
    have hzero : rangeError 0 t.text = false := by rwa [rangeError, ← hreads]
    rw [caseNumber_eq]
    split
    · rename_i hhex
      have hbase : checkBase t.text = 16 := by simp [checkBase, hhex]
      rw [hbase] at hrange hreads
      rw [strtoull_of_not_rangeError hrange, hreads]
    · exact strtoull_of_not_rangeError hzero
  constant s n h hread := by
    obtain ⟨v, -, rfl⟩ := constant_ok h
    obtain ⟨hok, rfl⟩ := readConstant_suffix (isSuffixChar_text t) _ hread
    exact hconstant hok

/-- Without a value for `check_expr` only the readings in the base 0 are left. -/
theorem agree_of_rangeError {text : List Char} (h : rangeError (checkBase text) text = true) :
    Agree text (digitsRead 0 text) where
  value n hn := by
    rw [(literalValue_ok hn).1] at h
    cases h
  arrayLength n hn := arrayLength_ok hn
  variableLength n hn := variableLength_ok hn
  enumValue minus m hm := enumValue_ok hm
  caseLabel n hn := by
    obtain ⟨v, hv, -⟩ := caseLabel_ok hn
    rw [(literalValue_ok hv).1] at h
    cases h
  constant s n hs _ := by
    obtain ⟨v, hv, -⟩ := constant_ok hs
    rw [(literalValue_ok hv).1] at h
    cases h

theorem agree_of_hex (t : IntLiteral) {x : Char} {ds : List Char} (hx : x = 'x' ∨ x = 'X')
    (htext : t.text = '0' :: x :: ds) (hds : ∀ d ∈ ds, isHexDigit d = true) :
    Agree t.text (digitsRead 0 t.text) := by
  have hhex : hexPrefixed t.text = true := by simpa [hexPrefixed, htext] using hx
  have htake : ds.takeWhile isHexDigit = ds := List.takeWhile_eq_self_iff.mpr hds
  apply agree_of_reads t
  · simp [digitsRead, checkBase, hhex]
  · intro _
    simp [constantValue, digitsRead, hhex]
    simp [htext, htake]

theorem hexPrefixed_digits {s : List Char} (h : ∀ d ∈ s, d.isDigit = true) :
    hexPrefixed s = false := by
  rw [Bool.eq_false_iff]
  intro hhex
  unfold hexPrefixed at hhex
  split at hhex
  · rename_i c s
    have hc := h c (by simp)
    simp only [Bool.or_eq_true, decide_eq_true_eq] at hhex
    rcases hhex with rfl | rfl
    · cases hc
    · cases hc
  · cases hhex

theorem digitsRead_ten {s : List Char} (h : ∀ d ∈ s, d.isDigit = true) :
    digitsRead (checkBase s) s = decimalValue s := by
  have htake : s.takeWhile Char.isDigit = s := List.takeWhile_eq_self_iff.mpr h
  simp [digitsRead, checkBase, hexPrefixed_digits h, htake, decimalValue]

theorem digitsRead_zero_octal {s : List Char} (h : ∀ d ∈ s, d.isDigit = true)
    (hzero : s.head? = some '0') :
    digitsRead 0 s = Nat.ofDigitChars 8 (s.takeWhile C11.isOctalDigit) 0 := by
  simp [digitsRead, hexPrefixed_digits h, hzero]

theorem constantValue_octal {s : List Char} (h : ∀ d ∈ s, d.isDigit = true)
    (hzero : s.head? = some '0') (hconstant : isConstant s) :
    constantValue s = digitsRead 0 s := by
  obtain ⟨r, rfl⟩ : ∃ r, s = '0' :: r := by
    cases s with
    | nil => cases hzero
    | cons c r =>
        obtain rfl : c = '0' := by simpa using hzero
        exact ⟨r, rfl⟩
  have hhex := hexPrefixed_digits h
  have hall : ∀ d ∈ '0' :: r, C11.isOctalDigit d = true := by
    cases r with
    | nil => simp [C11.isOctalDigit]
    | cons c r =>
        have hx : (c = 'x' || c = 'X') = false := hhex
        simp only [isConstant, hx, Bool.false_eq_true, if_false, List.all_eq_true] at hconstant
        intro d hd
        rcases List.mem_cons.mp hd with rfl | hd
        · decide
        · exact hconstant d hd
  have htake := List.takeWhile_eq_self_iff.mpr hall
  rw [digitsRead_zero_octal h hzero, htake]
  simp [constantValue, hhex]

theorem agree_of_decimal (t : IntLiteral) (hds : ∀ d ∈ t.text, d.isDigit = true)
    (hzero : t.text.head? ≠ some '0') : Agree t.text (digitsRead 0 t.text) := by
  have htake : t.text.takeWhile Char.isDigit = t.text := List.takeWhile_eq_self_iff.mpr hds
  have hhex := hexPrefixed_digits hds
  apply agree_of_reads t
  · rw [digitsRead_ten hds]
    simp [digitsRead, hhex, hzero, htake, decimalValue]
  · intro _
    simp [constantValue, digitsRead, hhex, hzero, htake]

theorem behind_octal {s : List Char} (hds : ∀ d ∈ s, d.isDigit = true)
    (hzero : s.head? = some '0') : Behind (digitsRead 0 s) (decimalValue s) := by
  rw [digitsRead_zero_octal hds hzero]
  exact behind_ofDigitChars hds (.inr ⟨rfl, by omega⟩)

/-- A leading zero in front of a value from 8 on that `check_expr` takes. -/
def OctalSlip (text : List Char) : Prop :=
  leadingZero text = true ∧ 8 ≤ decimalValue text ∧ decimalValue text < 2 ^ 64

theorem not_octalSlip_hex {x : Char} {ds : List Char} (hx : x = 'x' ∨ x = 'X') :
    ¬OctalSlip ('0' :: x :: ds) := by
  rintro ⟨hzero, -⟩
  rcases hx with rfl | rfl
  · cases hzero
  · cases hzero

/-- `check_expr` and `case_same` disagree. -/
theorem not_oneValue_of_octalSlip (t : IntLiteral) (hds : ∀ d ∈ t.text, d.isDigit = true)
    (h : OctalSlip t.text) : ¬OneValue t.text := by
  obtain ⟨hzero, hlow, hhigh⟩ := h
  have hhead : t.text.head? = some '0' := by
    unfold leadingZero at hzero
    split at hzero
    · rename_i heq
      rw [heq]
      rfl
    · cases hzero
  have hbehind := behind_octal hds hhead
  have hrange : rangeError (checkBase t.text) t.text = false := by
    simpa [rangeError, digitsRead_ten hds] using hhigh
  have hvalue : literalValue t.text = .ok (decimalValue t.text) := by
    change (if rangeError (checkBase t.text) t.text then _ else
      Except.ok (CaseLabels.strtoull (checkBase t.text) t.text)) = _
    rw [hrange, strtoull_of_not_rangeError hrange, digitsRead_ten hds]
    rfl
  have hlabel : caseLabel t.text = .ok (CaseLabels.strtoull 0 t.text) := by
    rw [caseLabel, hvalue, caseNumber_eq, hexPrefixed_digits hds]
    rfl
  rintro ⟨v, hv⟩
  have hfirst := hv.value _ hvalue
  have hsecond := hv.caseLabel _ hlabel
  rw [strtoull_eq] at hsecond
  unfold Behind at hbehind
  omega

theorem oneValue_iff (t : IntLiteral) : OneValue t.text ↔ ¬OctalSlip t.text := by
  rcases IntLiteral_form t with ⟨x, ds, hx, -, htext, hds⟩ | ⟨hne, hds⟩
  · refine iff_of_true ⟨_, agree_of_hex t hx htext hds⟩ ?_
    rw [htext]
    exact not_octalSlip_hex hx
  · constructor
    · exact fun h hslip ↦ not_oneValue_of_octalSlip t hds hslip h
    · intro hslip
      by_cases hzero : t.text.head? = some '0'
      · by_cases hrange : rangeError (checkBase t.text) t.text = true
        · exact ⟨_, agree_of_rangeError hrange⟩
        · -- what `check_expr` takes is below 8, where the bases do not differ
          have hbehind := behind_octal hds hzero
          have hsmall : digitsRead 0 t.text = decimalValue t.text := by
            by_contra hdiff
            have hlow : 8 ≤ decimalValue t.text := by
              unfold Behind at hbehind
              omega
            refine hslip ⟨?_, hlow, ?_⟩
            · cases htext : t.text with
              | nil => exact absurd htext hne
              | cons c r =>
                  obtain rfl : c = '0' := by simpa [htext] using hzero
                  cases r with
                  | nil => simp [htext, decimalValue, Nat.ofDigitChars_cons] at hlow
                  | cons d r => exact hds d (by simp [htext])
            · simpa [rangeError, digitsRead_ten hds] using hrange
          refine ⟨_, agree_of_reads t ?_ (constantValue_octal hds hzero)⟩
          rw [digitsRead_ten hds, hsmall]
      · exact ⟨_, agree_of_decimal t hds hzero⟩

/-- `010` has the type of 10 and is the label 8. -/
theorem not_forall_oneValue : ¬∀ t : IntLiteral, OneValue t.text := by
  intro h
  obtain ⟨v, hv⟩ := h ⟨"010".toList, by decide⟩
  have hvalue : 10 = v := hv.value 10 rfl
  have hlabel : 8 = v := hv.caseLabel 8 rfl
  omega

end TinyCPlus.Compiler.IntegerReadings
