import TinyCPlus.Compiler.Literal

/-!
# Duplicate case labels (`case_key`, `case_same`, `check_switch`)

The labels of a switch are compared with the earlier ones before any value is known: by their
texts or, where the later label is an integer, by the numbers that `strtoull` reads.  The emitted
comparisons are by value.
-/

namespace TinyCPlus.Compiler.CaseLabels

/-! ## Integer constants -/

/-- The text starts with `0x` or `0X`. -/
def hexPrefixed : List Char → Bool
  | '0' :: c :: _ => c = 'x' || c = 'X'
  | _ => false

/-- `strtoull` for a text without blanks and sign, with the base 0, 10 or 16. -/
def strtoull (base : ℕ) (s : List Char) : ℕ :=
  let read :=
    if hexPrefixed s ∧ base ≠ 10 then C11.hexadecimalValue ((s.drop 2).takeWhile isHexDigit)
    else if base = 16 then C11.hexadecimalValue (s.takeWhile isHexDigit)
    else if base = 0 ∧ s.head? = some '0' then
      Nat.ofDigitChars 8 (s.takeWhile C11.isOctalDigit) 0
    else Nat.ofDigitChars 10 (s.takeWhile Char.isDigit) 0
  min read (2 ^ 64 - 1)

/-- C reads the text as an integer constant.  The lexer takes `08` too, which C rejects. -/
def isConstant : List Char → Bool
  | '0' :: c :: s =>
      if c = 'x' || c = 'X' then s ≠ [] && s.all isHexDigit else (c :: s).all C11.isOctalDigit
  | s => s ≠ [] && s.all Char.isDigit

/-- The value of an integer constant. -/
def constantValue (s : List Char) : ℕ :=
  if hexPrefixed s then C11.hexadecimalValue (s.drop 2)
  else if s.head? = some '0' then Nat.ofDigitChars 8 s 0
  else Nat.ofDigitChars 10 s 0

/-- An integer literal in the range of `u64`. -/
structure IntLiteral where
  text : List Char
  constant : isConstant text
  lt : constantValue text < 2 ^ 64

namespace IntLiteral

variable (t : IntLiteral)

def value : ℕ := constantValue t.text

end IntLiteral

/-- The number that `case_same` reads from the text of a label. -/
def caseNumber (s : List Char) : ℕ :=
  if hexPrefixed s then strtoull 16 s else strtoull 0 s

/-! ## Labels -/

inductive Label where
  | int (t : IntLiteral)
  | negated (t : IntLiteral)
  | char (u : LiteralChar)
  | bool (b : Bool)
  /-- A member of an enum with its value. -/
  | member (m : ℤ)
  /-- A string by its text behind the opening quote. -/
  | string (s : List Char)

/-- `%lld` -/
def memberText : ℤ → List Char
  | .ofNat n => Nat.toDigits 10 n
  | .negSucc n => '-' :: Nat.toDigits 10 (n + 1)

def boolText (b : Bool) : List Char := if b then "true".toList else "false".toList

namespace Label

/-- `case_key` -/
def key : Label → List Char
  | int t => t.text
  | negated t => t.text
  | char u => '\'' :: u.text ++ ['\'']
  | bool b => boolText b
  | member m => memberText m
  | string s => '"' :: s

/-- `case_negative` -/
def negative : Label → Bool
  | negated _ => true
  | _ => false

def isMember : Label → Bool
  | member _ => true
  | _ => false

def isInt : Label → Bool
  | int _ => true
  | _ => false

end Label

/-- `case_same`, with the later label `a`. -/
def caseSame (a b : Label) : Bool :=
  let x := a.key
  let y := b.key
  if a.isMember || b.isMember then x = y
  else if a.isInt || a.negative then caseNumber x = caseNumber y && a.negative = b.negative
  else x = y

/-- The search of `check_switch` in the labels of all items: each label is compared with the
ones before it. -/
def duplicateLabel (earlier : List Label) : List Label → Bool
  | [] => false
  | v :: labels => earlier.any (caseSame v) || duplicateLabel (earlier ++ [v]) labels

/-- The diagnostic `duplicate case label`. -/
def checkSwitch (items : List (List Label)) : Bool := duplicateLabel [] items.flatten

/-! ## What the labels stand for -/

/-- The type of a subject: how the values of the labels are converted to it, and the value of a
character. -/
structure Subject where
  convert : ℤ → ℤ
  charValue : ℕ → ℤ

namespace Subject

variable (T : Subject)

/-- The value of `-t`: from `2 ^ 63` on the literal is a `u64`. -/
def negatedValue (n : ℕ) : ℤ := if n < 2 ^ 63 then -n else 2 ^ 64 - n

/-- The value that is compared with the subject. -/
def denotes : Label → ℤ ⊕ List ℕ
  | .int t => .inl (T.convert t.value)
  | .negated t => .inl (T.convert (negatedValue t.value))
  | .char u => .inl (T.convert (T.charValue u.value))
  | .bool b => .inl (T.convert b.toNat)
  | .member m => .inl (T.convert m)
  | .string s => .inr ((literalChars '"' s).map LiteralChar.value)

/-- The spellings of two labels, the first the later one, show whether they stand for the same
value. -/
def Comparable (a b : Label) : Prop :=
  match a, b with
  | .int t, .int u | .negated t, .negated u => T.denotes a = T.denotes b → t.value = u.value
  | .char u, .char w => T.denotes a = T.denotes b → u.text = w.text
  | .bool v, .bool w => T.denotes a = T.denotes b → v = w
  | .member m, .member k => T.denotes a = T.denotes b → m = k
  | .string s, .string r => T.denotes a = T.denotes b → s = r
  | .int t, .member m | .member m, .int t => T.denotes a = T.denotes b → t.text = memberText m
  | .negated t, .member m | .member m, .negated t =>
      T.denotes a = T.denotes b ↔ t.text = memberText m
  | .int t, .char _ | .int t, .bool _ => T.denotes a = T.denotes b ↔ t.value = 0
  | .int t, .string _ => t.value ≠ 0
  | _, _ => T.denotes a ≠ T.denotes b

end Subject

/-! ## The numbers that are read -/

theorem toDigits_ten_eq (n : ℕ) :
    ∃ c s, Nat.toDigits 10 n = c :: s ∧ c.isDigit ∧ (c = '0' → n = 0) := by
  induction n using Nat.strongRecOn with
  | ind n ih =>
    by_cases h : n < 10
    · refine ⟨n.digitChar, [], Nat.toDigits_of_lt_base h, ?_, ?_⟩
      · have hmem : n.digitChar ∈ Nat.toDigits 10 n := by simp [Nat.toDigits_of_lt_base h]
        exact Nat.isDigit_of_mem_toDigits (by omega) le_rfl hmem
      · intro h0
        interval_cases n <;> simp_all [Nat.digitChar]
    · obtain ⟨c, s, hs, hc, h0⟩ := ih (n / 10) (by omega)
      refine ⟨c, s ++ [(n % 10).digitChar], ?_, hc, fun e ↦ ?_⟩
      · rw [Nat.toDigits_of_base_le (by omega) (by omega), hs]
        rfl
      · have := h0 e
        omega

theorem isDigit_constant (s : List Char) (h : isConstant s) : ∃ c r, s = c :: r ∧ c.isDigit := by
  unfold isConstant at h
  split at h
  · exact ⟨_, _, rfl, by decide⟩
  · cases s with
    | nil => simp at h
    | cons c r => exact ⟨c, r, rfl, by simp at h; exact h.1⟩


theorem hexPrefixed_of_head (s : List Char) (h : s.head? ≠ some '0') : hexPrefixed s = false := by
  unfold hexPrefixed
  split
  · exact absurd rfl h
  · rfl

theorem caseNumber_of_hex (c : Char) (s : List Char) (hc : c = 'x' ∨ c = 'X')
    (hs : s.all isHexDigit) (hlt : C11.hexadecimalValue s < 2 ^ 64) :
    caseNumber ('0' :: c :: s) = constantValue ('0' :: c :: s) := by
  have hx : hexPrefixed ('0' :: c :: s) = true := by simpa [hexPrefixed] using hc
  have hread : s.takeWhile isHexDigit = s := List.takeWhile_eq_self_iff.mpr (by simpa using hs)
  simp only [caseNumber, constantValue, strtoull, hx, if_true, List.drop_succ_cons, List.drop_zero,
    hread]
  simp only [true_and, ne_eq, Nat.reduceEqDiff, not_false_eq_true, if_true]
  exact min_eq_left (by omega)

theorem caseNumber_of_octal (s : List Char) (hs : ('0' :: s).all C11.isOctalDigit)
    (hlt : Nat.ofDigitChars 8 ('0' :: s) 0 < 2 ^ 64) :
    caseNumber ('0' :: s) = constantValue ('0' :: s) := by
  have hx : hexPrefixed ('0' :: s) = false := by
    cases s with
    | nil => rfl
    | cons c s =>
      have hc : C11.isOctalDigit c = true := by simp at hs; exact hs.2.1
      simp only [hexPrefixed, Bool.or_eq_false_iff, decide_eq_false_iff_not]
      constructor <;> rintro rfl <;> exact absurd hc (by decide)
  have hread : ('0' :: s).takeWhile C11.isOctalDigit = '0' :: s :=
    List.takeWhile_eq_self_iff.mpr (by simpa using hs)
  simp only [caseNumber, constantValue, strtoull, hx, hread, Bool.false_eq_true, false_and,
    if_false, List.head?_cons, if_true, and_self, OfNat.zero_ne_ofNat]
  exact min_eq_left (by omega)

theorem caseNumber_of_decimal (s : List Char) (h0 : s.head? ≠ some '0')
    (hs : s.all Char.isDigit) (hlt : Nat.ofDigitChars 10 s 0 < 2 ^ 64) :
    caseNumber s = constantValue s := by
  have hx := hexPrefixed_of_head s h0
  have hread : s.takeWhile Char.isDigit = s := List.takeWhile_eq_self_iff.mpr (by simpa using hs)
  simp only [caseNumber, constantValue, strtoull, hx, hread, Bool.false_eq_true, false_and,
    if_false, h0, and_false, OfNat.zero_ne_ofNat]
  exact min_eq_left (by omega)

theorem caseNumber_constant (s : List Char) (h : isConstant s) (hlt : constantValue s < 2 ^ 64) :
    caseNumber s = constantValue s := by
  unfold isConstant at h
  split at h
  · rename_i c s
    split at h
    · rename_i hc
      have hx : hexPrefixed ('0' :: c :: s) = true := by simpa [hexPrefixed] using hc
      simp only [Bool.and_eq_true] at h
      exact caseNumber_of_hex c s (by simpa using hc) h.2 (by simpa [constantValue, hx] using hlt)
    · rename_i hc
      have hx : hexPrefixed ('0' :: c :: s) = false := by simpa [hexPrefixed] using hc
      refine caseNumber_of_octal (c :: s) ?_ (by simpa [constantValue, hx] using hlt)
      simp only [List.all_cons, Bool.and_eq_true] at h ⊢
      exact ⟨by decide, h⟩
  · rename_i hne
    simp only [Bool.and_eq_true] at h
    by_cases h0 : s.head? = some '0'
    · cases s with
      | nil => simp at h0
      | cons c r =>
        cases r with
        | nil =>
          obtain rfl : c = '0' := by simpa using h0
          decide
        | cons d r =>
          obtain rfl : c = '0' := by simpa using h0
          exact absurd rfl (hne d r)
    · have hx := hexPrefixed_of_head s h0
      exact caseNumber_of_decimal s h0 h.2 (by simpa [constantValue, hx, h0] using hlt)

/-- The text of a member that is not negative is a decimal constant with the value. -/
theorem constantValue_toDigits (n : ℕ) : constantValue (Nat.toDigits 10 n) = n := by
  obtain ⟨c, s, hs, hc, h0⟩ := toDigits_ten_eq n
  by_cases h : c = '0'
  · obtain rfl := h0 h
    decide
  · have hh : (Nat.toDigits 10 n).head? ≠ some '0' := by simpa [hs] using h
    have hx := hexPrefixed_of_head _ hh
    simp only [constantValue, hx, Bool.false_eq_true, if_false, hh]
    exact Nat.ofDigitChars_ten_toDigits

theorem eq_of_text_eq_memberText (t : IntLiteral) (m : ℤ) (h : t.text = memberText m) :
    (t.value : ℤ) = m := by
  cases m with
  | ofNat n =>
    have : t.value = n := by
      rw [IntLiteral.value, h]
      exact constantValue_toDigits n
    simp [this]
  | negSucc n =>
    obtain ⟨c, s, hs, hc⟩ := isDigit_constant t.text t.constant
    rw [hs] at h
    obtain ⟨rfl, _⟩ : c = '-' ∧ s = _ := by simpa [memberText] using h
    exact absurd hc (by decide)

theorem memberText_injective : Function.Injective memberText := by
  intro m k h
  cases m with
  | ofNat m =>
    cases k with
    | ofNat k =>
      have := congrArg constantValue h
      simpa [memberText, constantValue_toDigits] using this
    | negSucc k =>
      obtain ⟨c, s, hs, hc, _⟩ := toDigits_ten_eq m
      simp only [memberText, hs, List.cons.injEq] at h
      exact absurd (h.1 ▸ hc) (by decide)
  | negSucc m =>
    cases k with
    | ofNat k =>
      obtain ⟨c, s, hs, hc, _⟩ := toDigits_ten_eq k
      simp only [memberText, hs, List.cons.injEq] at h
      exact absurd (h.1.symm ▸ hc) (by decide)
    | negSucc k =>
      simp only [memberText, List.cons.injEq, true_and] at h
      have := congrArg constantValue h
      simp only [constantValue_toDigits] at this
      omega

/-! ## Comparing texts -/

theorem caseNumber_of_head (c : Char) (s : List Char) (hc : c.isDigit = false) :
    caseNumber (c :: s) = 0 := by
  have h0 : c ≠ '0' := by
    rintro rfl
    exact absurd hc (by decide)
  have hx := hexPrefixed_of_head (c :: s) (by simpa using h0)
  simp [caseNumber, strtoull, hx, h0, hc]

inductive Kind where
  | number
  | char
  | bool
  | string
deriving DecidableEq

/-- The kind of a label by the first character of its text. -/
def Kind.of (c : Char) : Kind :=
  if c = '\'' then .char
  else if c = '"' then .string
  else if c = 't' ∨ c = 'f' then .bool
  else .number

theorem Kind.of_isDigit (c : Char) (h : c.isDigit) : Kind.of c = .number := by
  unfold Kind.of
  split_ifs with hquote hstring hbool
  · exact absurd h (by rw [hquote]; decide)
  · exact absurd h (by rw [hstring]; decide)
  · rcases hbool with rfl | rfl
    · exact absurd h (by decide)
    · exact absurd h (by decide)
  · rfl

namespace Label

def kind : Label → Kind
  | char _ => .char
  | bool _ => .bool
  | string _ => .string
  | int _ => .number
  | negated _ => .number
  | member _ => .number

theorem key_eq (l : Label) : ∃ c s, l.key = c :: s ∧ Kind.of c = l.kind := by
  cases l with
  | int t =>
    obtain ⟨c, s, hs, hc⟩ := isDigit_constant t.text t.constant
    exact ⟨c, s, hs, Kind.of_isDigit c hc⟩
  | negated t =>
    obtain ⟨c, s, hs, hc⟩ := isDigit_constant t.text t.constant
    exact ⟨c, s, hs, Kind.of_isDigit c hc⟩
  | char u => exact ⟨_, _, rfl, rfl⟩
  | bool b =>
    cases b
    · exact ⟨_, _, rfl, rfl⟩
    · exact ⟨_, _, rfl, rfl⟩
  | member m =>
    cases m with
    | ofNat n =>
      obtain ⟨c, s, hs, hc, _⟩ := toDigits_ten_eq n
      exact ⟨c, s, hs, Kind.of_isDigit c hc⟩
    | negSucc n => exact ⟨_, _, rfl, rfl⟩
  | string s => exact ⟨_, _, rfl, rfl⟩

theorem kind_eq_of_key (a b : Label) (h : a.key = b.key) : a.kind = b.kind := by
  obtain ⟨c, s, hs, hc⟩ := a.key_eq
  obtain ⟨d, r, hr, hd⟩ := b.key_eq
  have hcd : c = d := (List.cons.inj (hs.symm.trans (h.trans hr))).1
  rw [← hc, ← hd, hcd]

end Label

/-- What `case_same` sees, with the later label first. -/
def Sees (a b : Label) : Prop :=
  match a, b with
  | .int t, .int u | .negated t, .negated u => t.value = u.value
  | .char u, .char w => u.text = w.text
  | .bool v, .bool w => v = w
  | .member m, .member k => m = k
  | .string s, .string r => s = r
  | .int t, .member m | .member m, .int t | .negated t, .member m | .member m, .negated t =>
      t.text = memberText m
  | .int t, .char _ | .int t, .bool _ | .int t, .string _ => t.value = 0
  | _, _ => False

theorem caseNumber_text (t : IntLiteral) : caseNumber t.text = t.value :=
  caseNumber_constant t.text t.constant t.lt

theorem caseNumber_boolText (b : Bool) : caseNumber (boolText b) = 0 := by
  cases b <;> decide

theorem boolText_injective : Function.Injective boolText := by decide

theorem caseSame_of_member (a b : Label) (h : a.isMember || b.isMember) :
    caseSame a b ↔ a.key = b.key := by
  simp [caseSame, h]

theorem caseSame_of_number (a b : Label) (hm : (a.isMember || b.isMember) = false)
    (h : a.isInt || a.negative) :
    caseSame a b ↔ caseNumber a.key = caseNumber b.key ∧ a.negative = b.negative := by
  simp [caseSame, hm, h]

theorem caseSame_of_text (a b : Label) (hm : (a.isMember || b.isMember) = false)
    (h : (a.isInt || a.negative) = false) : caseSame a b ↔ a.key = b.key := by
  simp [caseSame, hm, h]

theorem caseSame_iff_of_int (t : IntLiteral) (b : Label) :
    caseSame (.int t) b ↔ Sees (.int t) b := by
  cases b with
  | member m => exact caseSame_of_member _ _ rfl
  | int u =>
    rw [caseSame_of_number _ _ rfl rfl]
    have heq : caseNumber t.text = caseNumber u.text ↔ t.value = u.value := by
      rw [caseNumber_text, caseNumber_text]
    exact (and_iff_left rfl).trans heq
  | negated u =>
    rw [caseSame_of_number _ _ rfl rfl]
    exact iff_of_false (fun h ↦ absurd h.2 (by simp [Label.negative])) id
  | char u =>
    rw [caseSame_of_number _ _ rfl rfl]
    have hzero : caseNumber t.text = caseNumber (Label.char u).key ↔ t.value = 0 := by
      rw [caseNumber_text, Label.key, List.cons_append, caseNumber_of_head _ _ rfl]
    exact (and_iff_left rfl).trans hzero
  | bool u =>
    rw [caseSame_of_number _ _ rfl rfl]
    have hzero : caseNumber t.text = caseNumber (boolText u) ↔ t.value = 0 := by
      rw [caseNumber_text, caseNumber_boolText]
    exact (and_iff_left rfl).trans hzero
  | string s =>
    rw [caseSame_of_number _ _ rfl rfl]
    have hzero : caseNumber t.text = caseNumber (Label.string s).key ↔ t.value = 0 := by
      rw [caseNumber_text, Label.key, caseNumber_of_head _ _ rfl]
    exact (and_iff_left rfl).trans hzero

theorem caseSame_iff_of_negated (t : IntLiteral) (b : Label) :
    caseSame (.negated t) b ↔ Sees (.negated t) b := by
  cases b with
  | member m => exact caseSame_of_member _ _ rfl
  | negated u =>
    rw [caseSame_of_number _ _ rfl rfl]
    have heq : caseNumber t.text = caseNumber u.text ↔ t.value = u.value := by
      rw [caseNumber_text, caseNumber_text]
    exact (and_iff_left rfl).trans heq
  | _ =>
    rw [caseSame_of_number _ _ rfl rfl]
    exact iff_of_false (fun h ↦ absurd h.2 (by simp [Label.negative])) id

/-- Labels of different kinds have different texts. -/
theorem key_ne_of_kind (a b : Label) (h : a.kind ≠ b.kind) : a.key ≠ b.key :=
  fun hk ↦ h (a.kind_eq_of_key b hk)

theorem caseSame_iff_of_member (m : ℤ) (b : Label) :
    caseSame (.member m) b ↔ Sees (.member m) b := by
  rw [caseSame_of_member _ _ rfl]
  cases b with
  | int t => exact eq_comm
  | negated t => exact eq_comm
  | member k => exact memberText_injective.eq_iff
  | _ => exact iff_of_false (key_ne_of_kind _ _ (by simp [Label.kind])) id

theorem caseSame_iff_of_text (a b : Label) (h : a.kind ≠ .number) : caseSame a b ↔ Sees a b := by
  by_cases hb : b.isMember
  · rw [caseSame_of_member a b (by simp [hb])]
    cases b with
    | member m =>
      refine iff_of_false (key_ne_of_kind _ _ h) ?_
      cases a <;> first | exact id | exact absurd rfl h
    | _ => cases hb
  · have hm : (a.isMember || b.isMember) = false := by
      cases a <;> simp_all [Label.isMember, Label.kind]
    rw [caseSame_of_text a b hm (by cases a <;> simp_all [Label.isInt, Label.negative, Label.kind])]
    cases a with
    | int t => exact absurd rfl h
    | negated t => exact absurd rfl h
    | member m => exact absurd rfl h
    | char u =>
      cases b with
      | char w => simp [Label.key, Sees]
      | _ => exact iff_of_false (key_ne_of_kind _ _ (by simp [Label.kind])) id
    | bool v =>
      cases b with
      | bool w => exact boolText_injective.eq_iff
      | _ => exact iff_of_false (key_ne_of_kind _ _ (by simp [Label.kind])) id
    | string s =>
      cases b with
      | string r => simp [Label.key, Sees]
      | _ => exact iff_of_false (key_ne_of_kind _ _ (by simp [Label.kind])) id

theorem caseSame_iff (a b : Label) : caseSame a b ↔ Sees a b := by
  cases a with
  | int t => exact caseSame_iff_of_int t b
  | negated t => exact caseSame_iff_of_negated t b
  | member m => exact caseSame_iff_of_member m b
  | char u => exact caseSame_iff_of_text _ b (by simp [Label.kind])
  | bool v => exact caseSame_iff_of_text _ b (by simp [Label.kind])
  | string s => exact caseSame_iff_of_text _ b (by simp [Label.kind])

theorem LiteralChar.text_injective : Function.Injective LiteralChar.text := by
  intro u w h
  cases u <;> cases w <;> simp_all [LiteralChar.text]

namespace Subject

variable (T : Subject)

theorem denotes_eq_of_sees_int (t : IntLiteral) (b : Label) (h : Sees (.int t) b)
    (hb : b.isInt || b.isMember) : T.denotes (.int t) = T.denotes b := by
  cases b with
  | int u => exact congrArg (fun n : ℕ ↦ Sum.inl (T.convert n)) h
  | member m => exact congrArg (fun n ↦ Sum.inl (T.convert n)) (eq_of_text_eq_memberText t m h)
  | _ => cases hb

/-- The comparison is right where labels that are seen to be the same are the same. -/
theorem iff_of_sees {a b : Label} (h : Sees a b → T.denotes a = T.denotes b) :
    (Sees a b ↔ T.denotes a = T.denotes b) ↔ (T.denotes a = T.denotes b → Sees a b) :=
  ⟨Iff.mpr, fun h' ↦ ⟨h, h'⟩⟩

/-- The comparison is right where labels that are seen to be different are different. -/
theorem iff_of_not_sees {a b : Label} (h : ¬Sees a b) :
    (Sees a b ↔ T.denotes a = T.denotes b) ↔ T.denotes a ≠ T.denotes b :=
  ⟨fun hiff e ↦ h (hiff.mpr e), fun hne ↦ iff_of_false h hne⟩

theorem sees_iff_denotes (a b : Label) :
    (Sees a b ↔ T.denotes a = T.denotes b) ↔ T.Comparable a b := by
  cases a with
  | int t =>
    cases b with
    | int u => exact T.iff_of_sees fun h ↦ T.denotes_eq_of_sees_int t _ h rfl
    | member m => exact T.iff_of_sees fun h ↦ T.denotes_eq_of_sees_int t _ h rfl
    | negated u => exact T.iff_of_not_sees id
    | char u => exact iff_comm
    | bool u => exact iff_comm
    | string s =>
      constructor
      · intro h hzero
        exact Sum.inl_ne_inr (h.mp hzero)
      · exact fun h ↦ iff_of_false h Sum.inl_ne_inr
  | negated t =>
    cases b with
    | negated u =>
      exact T.iff_of_sees fun h ↦ congrArg (fun n ↦ Sum.inl (T.convert (negatedValue n))) h
    | member m => exact iff_comm
    | _ => exact T.iff_of_not_sees id
  | char u =>
    cases b with
    | char w =>
      exact T.iff_of_sees fun h ↦
        congrArg (fun u ↦ T.denotes (.char u)) (LiteralChar.text_injective h)
    | _ => exact T.iff_of_not_sees id
  | bool v =>
    cases b with
    | bool w => exact T.iff_of_sees fun h ↦ congrArg (fun v ↦ T.denotes (.bool v)) h
    | _ => exact T.iff_of_not_sees id
  | member m =>
    cases b with
    | int t => exact T.iff_of_sees fun h ↦ (T.denotes_eq_of_sees_int t (.member m) h rfl).symm
    | negated t => exact iff_comm
    | member k => exact T.iff_of_sees fun h ↦ congrArg (fun m ↦ T.denotes (.member m)) h
    | _ => exact T.iff_of_not_sees id
  | string s =>
    cases b with
    | string r => exact T.iff_of_sees fun h ↦ congrArg (fun s ↦ T.denotes (.string s)) h
    | _ => exact T.iff_of_not_sees id

end Subject

/-! ## The whole switch -/

theorem duplicateLabel_eq_false (earlier labels : List Label) :
    duplicateLabel earlier labels = false ↔
      (∀ b ∈ labels, ∀ a ∈ earlier, caseSame b a = false) ∧
        labels.Pairwise (fun a b ↦ caseSame b a = false) := by
  induction labels generalizing earlier with
  | nil => simp [duplicateLabel]
  | cons v labels ih =>
    have hany : earlier.any (caseSame v) = false ↔ ∀ a ∈ earlier, caseSame v a = false := by
      simp
    rw [duplicateLabel, Bool.or_eq_false_iff, hany, ih, List.pairwise_cons]
    simp only [List.mem_cons, List.mem_append, List.not_mem_nil, or_false, forall_eq_or_imp]
    constructor
    · rintro ⟨hv, hlabels, hpairs⟩
      exact ⟨⟨hv, fun b hb a ha ↦ hlabels b hb a (Or.inl ha)⟩,
        fun b hb ↦ hlabels b hb v (Or.inr rfl), hpairs⟩
    · rintro ⟨⟨hv, hlabels⟩, hnew, hpairs⟩
      refine ⟨hv, fun b hb a ha ↦ ?_, hpairs⟩
      rcases ha with ha | rfl
      · exact hlabels b hb a ha
      · exact hnew b hb

/-- The diagnostic is given if a label is seen to be the same as an earlier one. -/
theorem checkSwitch_iff (items : List (List Label)) :
    checkSwitch items ↔ ∃ a b, [a, b].Sublist items.flatten ∧ caseSame b a := by
  have h := duplicateLabel_eq_false [] items.flatten
  rw [List.pairwise_iff_forall_sublist] at h
  rw [← not_iff_not, Bool.not_eq_true, checkSwitch, h]
  simp

namespace Subject

variable (T : Subject)

/-- Two labels stand for the same value. -/
def Repeated (labels : List Label) : Prop := ¬(labels.map T.denotes).Nodup

theorem repeated_iff (labels : List Label) :
    T.Repeated labels ↔ ∃ a b, [a, b].Sublist labels ∧ T.denotes b = T.denotes a := by
  rw [Repeated, List.Nodup, List.pairwise_map, List.pairwise_iff_forall_sublist]
  push Not
  simp only [eq_comm]

/-- The labels are spelled so that the texts show what is repeated: every two of them are
comparable, or a repetition is among the comparable ones, or one that is overlooked stands beside
two labels that only look the same. -/
def Shown (labels : List Label) : Prop :=
  (∀ a b, [a, b].Sublist labels → T.Comparable b a) ∨
  (∃ a b, [a, b].Sublist labels ∧ T.Comparable b a ∧ T.denotes b = T.denotes a) ∨
  ((∃ a b, [a, b].Sublist labels ∧ ¬T.Comparable b a ∧ T.denotes b = T.denotes a) ∧
    ∃ a b, [a, b].Sublist labels ∧ ¬T.Comparable b a ∧ T.denotes b ≠ T.denotes a)

theorem caseSame_iff_denotes (a b : Label) :
    (caseSame a b ↔ T.denotes a = T.denotes b) ↔ T.Comparable a b := by
  rw [caseSame_iff]
  exact T.sees_iff_denotes a b

theorem caseSame_iff_denotes_ne {a b : Label} (h : ¬T.Comparable a b) :
    caseSame a b ↔ T.denotes a ≠ T.denotes b := by
  rw [← T.caseSame_iff_denotes, not_iff] at h
  tauto

theorem shown_of_iff (labels : List Label)
    (h : (∃ a b, [a, b].Sublist labels ∧ caseSame b a) ↔ T.Repeated labels) : T.Shown labels := by
  rw [repeated_iff] at h
  by_cases hcaught : ∃ a b, [a, b].Sublist labels ∧ T.Comparable b a ∧ T.denotes b = T.denotes a
  · exact Or.inr (Or.inl hcaught)
  by_cases hrepeated : ∃ a b, [a, b].Sublist labels ∧ T.denotes b = T.denotes a
  · -- the repetition is overlooked, so that the diagnostic comes from another two labels
    obtain ⟨a, b, hab, hd⟩ := hrepeated
    have hmissed : ¬T.Comparable b a := fun hc ↦ hcaught ⟨a, b, hab, hc, hd⟩
    obtain ⟨a', b', hab', hsame⟩ := h.mpr ⟨a, b, hab, hd⟩
    have hfalse : ¬T.Comparable b' a' := fun hc ↦
      hcaught ⟨a', b', hab', hc, ((T.caseSame_iff_denotes b' a').mpr hc).mp hsame⟩
    exact Or.inr (Or.inr ⟨⟨a, b, hab, hmissed, hd⟩, a', b', hab', hfalse,
      (T.caseSame_iff_denotes_ne hfalse).mp hsame⟩)
  · refine Or.inl fun a b hab ↦ (T.caseSame_iff_denotes b a).mp (iff_of_false ?_ ?_)
    · exact fun hsame ↦ hrepeated (h.mp ⟨a, b, hab, hsame⟩)
    · exact fun hd ↦ hrepeated ⟨a, b, hab, hd⟩

theorem iff_of_shown (labels : List Label) (h : T.Shown labels) :
    (∃ a b, [a, b].Sublist labels ∧ caseSame b a) ↔ T.Repeated labels := by
  rw [repeated_iff]
  rcases h with hall | ⟨a, b, hab, hc, hd⟩ | ⟨⟨a, b, hab, -, hd⟩, a', b', hab', hc', hd'⟩
  · constructor
    · rintro ⟨a, b, hab, hsame⟩
      exact ⟨a, b, hab, ((T.caseSame_iff_denotes b a).mpr (hall a b hab)).mp hsame⟩
    · rintro ⟨a, b, hab, hd⟩
      exact ⟨a, b, hab, ((T.caseSame_iff_denotes b a).mpr (hall a b hab)).mpr hd⟩
  · exact iff_of_true ⟨a, b, hab, ((T.caseSame_iff_denotes b a).mpr hc).mpr hd⟩ ⟨a, b, hab, hd⟩
  · exact iff_of_true ⟨a', b', hab', (T.caseSame_iff_denotes_ne hc').mpr hd'⟩ ⟨a, b, hab, hd⟩

theorem duplicate_iff_repeated (items : List (List Label)) :
    (checkSwitch items ↔ T.Repeated items.flatten) ↔ T.Shown items.flatten := by
  rw [checkSwitch_iff]
  exact ⟨T.shown_of_iff _, T.iff_of_shown _⟩

/-- `case 'A'` and `case '\x41'` -/
theorem repeated_character :
    ¬∀ (T : Subject) (items : List (List Label)), checkSwitch items ↔ T.Repeated items.flatten := by
  intro h
  have hsame := (h ⟨id, Nat.cast⟩ [[.char (.raw 'A')], [.char (.hex '4' '1')]]).mpr (by
    rw [repeated_iff]
    exact ⟨_, _, List.Sublist.refl _, by decide⟩)
  exact absurd hsame (by decide)

end Subject

/-- `case 16` and `case 0x10` -/
example : checkSwitch [[.int ⟨"16".toList, by decide, by decide⟩],
    [.int ⟨"0x10".toList, by decide, by decide⟩]] = true := by decide

end TinyCPlus.Compiler.CaseLabels
