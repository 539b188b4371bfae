import TinyCPlus.Compiler.Lexer

/-!
# Where a number ends

A number read off one text is read off another that starts with it exactly
when the text behind it may follow the number.
-/

namespace TinyCPlus.Compiler

open TinyCPlus.Library

/-- The text does not start with a character of the class. -/
def Stops (p : Char → Bool) (s : List Char) : Prop := ∀ c ∈ s.head?, p c = false

theorem stops_nil (p : Char → Bool) : Stops p [] := fun c hc ↦ by cases hc

@[simp] theorem stops_cons {p : Char → Bool} {c : Char} {s : List Char} :
    Stops p (c :: s) ↔ p c = false := by
  simp [Stops]

theorem Stops.mono {p q : Char → Bool} {s : List Char} (h : Stops p s)
    (hqp : ∀ c, q c = true → p c = true) : Stops q s := by
  intro c hc
  have hp := h c hc
  cases hq : q c with
  | false => rfl
  | true => rw [hqp c hq] at hp; cases hp

theorem takeWhile_append_eq_iff {p : Char → Bool} {a s : List Char} :
    (a ++ s).takeWhile p = a ↔ (∀ x ∈ a, p x = true) ∧ Stops p s := by
  induction a with
  | nil =>
      cases s with
      | nil => simp [stops_nil]
      | cons c s => cases hc : p c <;> simp [hc]
  | cons c a ih => cases hc : p c <;> simp [hc, ih]

theorem mem_takeWhile {p : Char → Bool} {s : List Char} :
    ∀ x ∈ s.takeWhile p, p x = true := by
  intro x hx
  exact List.mem_takeWhile_imp hx

/-! ## Character classes -/

theorem digit_isIdChar {c : Char} (h : c.isDigit = true) : isIdChar c = true := by
  simp [isIdChar, Char.isAlphanum, h]

theorem idStart_isIdChar {c : Char} (h : isIdStart c = true) : isIdChar c = true := by
  simp only [isIdStart, Bool.or_eq_true, beq_iff_eq] at h
  rcases h with h | rfl
  · simp [isIdChar, Char.isAlphanum, h]
  · rfl

theorem isIdChar_iff {c : Char} :
    isIdChar c = true ↔ isIdStart c = true ∨ c.isDigit = true := by
  simp only [isIdChar, isIdStart, Char.isAlphanum, Bool.or_eq_true, beq_iff_eq]
  tauto

theorem toNat_of_isAlpha {c : Char} (h : c.isAlpha = true) :
    (65 ≤ c.toNat ∧ c.toNat ≤ 90) ∨ (97 ≤ c.toNat ∧ c.toNat ≤ 122) := by
  simpa [Char.isAlpha, Char.isUpper, Char.isLower, UInt32.le_iff_toNat_le] using h

theorem toNat_of_isDigit {c : Char} (h : c.isDigit = true) :
    48 ≤ c.toNat ∧ c.toNat ≤ 57 := by
  simpa [Char.isDigit, UInt32.le_iff_toNat_le] using h

theorem idStart_toNat {c : Char} (h : isIdStart c = true) :
    (65 ≤ c.toNat ∧ c.toNat ≤ 90) ∨ c.toNat = 95 ∨ (97 ≤ c.toNat ∧ c.toNat ≤ 122) := by
  simp only [isIdStart, Bool.or_eq_true, beq_iff_eq] at h
  rcases h with h | rfl
  · rcases toNat_of_isAlpha h with h | h
    · exact Or.inl h
    · exact Or.inr (Or.inr h)
  · exact Or.inr (Or.inl rfl)

theorem ne_of_toNat_ne {c d : Char} (h : c.toNat ≠ d.toNat) : c ≠ d := fun hcd ↦ h (hcd ▸ rfl)

theorem isSpace_eq_false {c : Char} (h : 33 ≤ c.toNat) : isSpace c = false := by
  have hne : c ≠ ' ' := ne_of_toNat_ne (by
    have : (' ' : Char).toNat = 32 := rfl
    omega)
  simp only [isSpace, Bool.or_eq_false_iff, Bool.and_eq_false_iff, decide_eq_false_iff_not,
    beq_eq_false_iff_ne]
  exact ⟨hne, Or.inr (by omega)⟩

theorem hexDigit_isIdChar {c : Char} (h : isHexDigit c = true) : isIdChar c = true := by
  simp only [isHexDigit, Bool.or_eq_true, Bool.and_eq_true, decide_eq_true_eq] at h
  rw [isIdChar_iff]
  simp only [isIdStart, Char.isAlpha, Char.isUpper, Char.isLower, Bool.or_eq_true,
    Bool.and_eq_true, decide_eq_true_eq, beq_iff_eq]
  rcases h with (h | ⟨h1, h2⟩) | ⟨h1, h2⟩
  · exact Or.inr h
  · refine Or.inl (Or.inl (Or.inr ⟨h1, h2.trans (by decide)⟩))
  · refine Or.inl (Or.inl (Or.inl ⟨h1, h2.trans (by decide)⟩))

/-! ## Choosing the branch of the lexer -/

theorem lexeme_of_idStart {c : Char} (h : isIdStart c = true) (s : List Char) :
    lexeme (c :: s) = some (.token ⟨.id, (c :: s).takeWhile isIdChar⟩) := by
  have hcode := idStart_toNat h
  have hslash : c ≠ '/' := ne_of_toNat_ne (by
    have : ('/' : Char).toNat = 47 := rfl
    omega)
  simp [lexeme, isSpace_eq_false (c := c) (by omega), hslash, h]

theorem lexeme_of_digit {c : Char} (h : c.isDigit = true) (s : List Char) :
    lexeme (c :: s) = (number (c :: s)).map .token := by
  have hcode := toNat_of_isDigit h
  have hslash : c ≠ '/' := ne_of_toNat_ne (by
    have : ('/' : Char).toNat = 47 := rfl
    omega)
  have hid : isIdStart c = false := by
    rw [Bool.eq_false_iff]
    intro hid
    have := idStart_toNat hid
    omega
  simp [lexeme, isSpace_eq_false (c := c) (by omega), hslash, hid, h]

theorem lexeme_of_quote {c : Char} (h : c = '"' ∨ c = '\'') (s : List Char) :
    lexeme (c :: s) = (literal c s).map .token := by
  have hchar : isSpace c = false ∧ c ≠ '/' ∧ isIdStart c = false ∧ c.isDigit = false := by
    rcases h with rfl | rfl <;> decide
  simp [lexeme, hchar, h]

/-! ## Numbers -/

/-- A point that the lexer takes into a number. -/
def PointAhead : List Char → Prop
  | '.' :: s => s.head? ≠ some '.'
  | _ => False

/-- The possible fractions. -/
inductive IsPoint : List Char → Prop where
  | none : IsPoint []
  | point {ds : List Char} (hds : ∀ d ∈ ds, d.isDigit = true) : IsPoint ('.' :: ds)

/-- The possible exponents. -/
inductive IsPower : List Char → Prop where
  | none : IsPower []
  | power {e : Char} {sign ds : List Char} (he : (e == 'e' || e == 'E') = true)
      (hsign : sign = [] ∨ sign = ['+'] ∨ sign = ['-']) (hne : ds ≠ [])
      (hds : ∀ d ∈ ds, d.isDigit = true) : IsPower (e :: sign ++ ds)

theorem isPoint_fraction (s : List Char) : IsPoint (fraction s) := by
  fun_cases fraction s with
  | case1 => exact IsPoint.none
  | case2 s _ => exact IsPoint.point mem_takeWhile
  | case3 => exact IsPoint.none

theorem isPower_of_exponent {s power : List Char} (h : exponent s = some power) :
    IsPower power := by
  revert h
  fun_cases exponent s with
  | case1 => rintro ⟨⟩
  | case2 c s he sign digits hdigits =>
      rintro ⟨⟩
      refine IsPower.power he ?_ hdigits mem_takeWhile
      change exponentSign s = [] ∨ exponentSign s = ['+'] ∨ exponentSign s = ['-']
      fun_cases exponentSign s with
      | case1 c s hc => simpa using hc
      | case2 => exact Or.inl rfl
      | case3 => exact Or.inl rfl
  | case3 => rintro ⟨⟩; exact IsPower.none
  | case4 => rintro ⟨⟩; exact IsPower.none

theorem fraction_eq_nil_iff {s : List Char} : fraction s = [] ↔ ¬ PointAhead s := by
  fun_cases fraction s with
  | case1 s h => simp [PointAhead, h]
  | case2 s h => simp [PointAhead, h]
  | case3 s h =>
      cases s with
      | nil => simp [PointAhead]
      | cons c s =>
          have hc : c ≠ '.' := fun hc ↦ h s (by rw [hc])
          simp only [true_iff]
          unfold PointAhead
          split
          · rename_i heq
            injection heq with hc' _
            exact absurd hc' hc
          · exact not_false

/-- What may stand behind a fraction. -/
theorem fraction_append_iff {ds s : List Char} (hds : ∀ d ∈ ds, d.isDigit = true) :
    fraction ('.' :: ds ++ s) = '.' :: ds ↔
      Stops Char.isDigit s ∧ (ds = [] → s.head? ≠ some '.') := by
  rw [List.cons_append, fraction]
  cases ds with
  | nil =>
      have htake := takeWhile_append_eq_iff (p := Char.isDigit) (a := []) (s := s)
      by_cases hdot : s.head? = some '.'
      · simp [hdot]
      · simpa [hdot] using htake
  | cons d ds =>
      have hd : d ≠ '.' := by
        rintro rfl
        exact absurd (hds '.' List.mem_cons_self) (by decide)
      have htake := takeWhile_append_eq_iff (p := Char.isDigit) (a := d :: ds) (s := s)
      simp only [List.cons_append, List.head?_cons, Option.some.injEq, hd, if_false,
        List.cons.injEq, true_and, reduceCtorEq, false_implies, and_true]
      rw [← List.cons_append, htake]
      exact ⟨fun h ↦ h.2, fun h ↦ ⟨hds, h⟩⟩

theorem exponent_eq_nil_of_stops {s : List Char} (h : Stops isIdChar s) :
    exponent s = some [] := by
  cases s with
  | nil => rfl
  | cons c s =>
      rw [stops_cons] at h
      have hc : (c == 'e' || c == 'E') = false := by
        rw [Bool.eq_false_iff]
        intro he
        simp only [Bool.or_eq_true, beq_iff_eq] at he
        rcases he with rfl | rfl <;> exact absurd h (by decide)
      simp [exponent, hc]

theorem exponent_append_iff {e : Char} {sign ds s : List Char}
    (he : (e == 'e' || e == 'E') = true) (hsign : sign = [] ∨ sign = ['+'] ∨ sign = ['-'])
    (hne : ds ≠ []) (hds : ∀ d ∈ ds, d.isDigit = true) :
    exponent (e :: sign ++ ds ++ s) = some (e :: sign ++ ds) ↔ Stops Char.isDigit s := by
  have hsigns : exponentSign (sign ++ (ds ++ s)) = sign := by
    cases ds with
    | nil => exact absurd rfl hne
    | cons d ds =>
        have hd := hds d List.mem_cons_self
        rcases hsign with rfl | rfl | rfl
        · have hplus : d ≠ '+' := by
            rintro rfl
            exact absurd hd (by decide)
          have hminus : d ≠ '-' := by
            rintro rfl
            exact absurd hd (by decide)
          simp [exponentSign, hplus, hminus]
        · rfl
        · rfl
  have htake := takeWhile_append_eq_iff (p := Char.isDigit) (a := ds) (s := s)
  rw [List.append_assoc, List.cons_append, exponent, if_pos he]
  simp only [hsigns, List.drop_left]
  constructor
  · intro h
    split at h
    · cases h
    · rename_i hnil
      injection h with h
      injection h with _ h
      exact (htake.mp (List.append_cancel_left h)).2
  · intro h
    rw [htake.mpr ⟨hds, h⟩, if_neg hne]

/-- The parts of a decimal number in front of a text. -/
structure DecimalParts (whole point power s : List Char) : Prop where
  digits : ∀ d ∈ whole, d.isDigit = true
  whole_stops : Stops Char.isDigit (point ++ power ++ s)
  fraction_eq : fraction (point ++ power ++ s) = point
  exponent_eq : exponent (power ++ s) = some power

theorem decimal_eq_some_iff {t : Token} {s : List Char} :
    decimal (t.text ++ s) = some t ↔ ∃ whole point power,
      t = ⟨if point = [] ∧ power = [] then .int else .float, whole ++ point ++ power⟩ ∧
        DecimalParts whole point power s := by
  rw [decimal, Option.map_eq_some_iff]
  constructor
  · rintro ⟨power, hpower, ht⟩
    refine ⟨_, _, power, ht.symm, ?_⟩
    obtain ⟨whole, hwhole⟩ : ∃ w, w = (t.text ++ s).takeWhile Char.isDigit := ⟨_, rfl⟩
    obtain ⟨point, hpoint⟩ : ∃ p, p = fraction ((t.text ++ s).drop whole.length) := ⟨_, rfl⟩
    rw [← hwhole, ← hpoint] at hpower ht ⊢
    have htext : t.text = whole ++ point ++ power := by rw [← ht]
    rw [htext, List.append_assoc _ _ s, List.append_assoc whole] at hwhole
    rw [htext, List.append_assoc _ _ s, List.append_assoc whole, List.drop_left] at hpoint
    rw [htext, List.append_assoc _ _ s, List.drop_left] at hpower
    obtain ⟨hdigits, hstops⟩ := takeWhile_append_eq_iff.mp hwhole.symm
    exact ⟨hdigits, by rwa [List.append_assoc], by rw [List.append_assoc]; exact hpoint.symm,
      hpower⟩
  · rintro ⟨whole, point, power, rfl, hparts⟩
    have hwhole := takeWhile_append_eq_iff.mpr ⟨hparts.digits, hparts.whole_stops⟩
    refine ⟨power, ?_, ?_⟩ <;>
      simp only [List.append_assoc] at hwhole ⊢ <;> rw [hwhole, List.drop_left]
    · have hpoint := hparts.fraction_eq
      simp only [List.append_assoc] at hpoint
      rw [hpoint, ← List.append_assoc, List.drop_left]
      exact hparts.exponent_eq
    · have hpoint := hparts.fraction_eq
      simp only [List.append_assoc] at hpoint
      rw [hpoint]

/-- What may stand behind the parts of a decimal number. -/
def PartsStop (point power s : List Char) : Prop :=
  Stops isIdChar s ∧ (point = [] → power = [] → ¬ PointAhead s) ∧
    (point = ['.'] → power = [] → s.head? ≠ some '.')

theorem DecimalParts.stops {whole point power s : List Char}
    (h : DecimalParts whole point power s) (hsuffix : Stops isIdStart s) :
    PartsStop point power s := by
  have hpower := isPower_of_exponent h.exponent_eq
  have hpoint := isPoint_fraction (point ++ power ++ s)
  rw [h.fraction_eq] at hpoint
  have hdigit : Stops Char.isDigit s := by
    cases hpower with
    | none =>
        cases hpoint with
        | none => simpa using h.whole_stops
        | point hds =>
            have hfraction := h.fraction_eq
            rw [List.append_nil, fraction_append_iff hds] at hfraction
            exact hfraction.1
    | power he hsign hne hds => exact (exponent_append_iff he hsign hne hds).mp h.exponent_eq
  refine ⟨?_, ?_, ?_⟩
  · intro c hc
    rw [Bool.eq_false_iff]
    intro hid
    rcases isIdChar_iff.mp hid with hid | hid
    · rw [hsuffix c hc] at hid
      cases hid
    · rw [hdigit c hc] at hid
      cases hid
  · rintro rfl rfl
    exact fraction_eq_nil_iff.mp h.fraction_eq
  · rintro rfl rfl
    have hfraction := h.fraction_eq
    rw [List.append_nil] at hfraction
    have hnone : ∀ d ∈ ([] : List Char), d.isDigit = true := fun d hd ↦ by cases hd
    exact ((fraction_append_iff hnone).mp hfraction).2 rfl

/-- The parts of a number do not depend on the text behind it. -/
theorem DecimalParts.congr {whole point power s s' : List Char}
    (h : DecimalParts whole point power s) (hstop : PartsStop point power s') :
    DecimalParts whole point power s' := by
  have hpower := isPower_of_exponent h.exponent_eq
  have hpoint := isPoint_fraction (point ++ power ++ s)
  rw [h.fraction_eq] at hpoint
  have hdigit : Stops Char.isDigit s' := hstop.1.mono fun c ↦ digit_isIdChar
  have hpowerStops : Stops Char.isDigit (power ++ s') := by
    cases hpower with
    | none => exact hdigit
    | @power e _ _ he _ _ _ =>
        simp only [List.cons_append, stops_cons]
        simp only [Bool.or_eq_true, beq_iff_eq] at he
        rcases he with rfl | rfl <;> decide
  refine ⟨h.digits, ?_, ?_, ?_⟩
  · cases hpoint with
    | none => simpa using hpowerStops
    | point _ => simp
  · cases hpoint with
    | none =>
        rw [List.nil_append, fraction_eq_nil_iff]
        cases hpower with
        | none => exact hstop.2.1 rfl rfl
        | @power e _ _ he _ _ _ =>
            intro hahead
            simp only [Bool.or_eq_true, beq_iff_eq] at he
            rcases he with rfl | rfl <;> exact hahead
    | @point ds hds =>
        rw [List.append_assoc, fraction_append_iff hds]
        refine ⟨hpowerStops, ?_⟩
        rintro rfl
        cases hpower with
        | none => exact hstop.2.2 rfl rfl
        | @power e _ _ he _ _ _ =>
            simp only [Bool.or_eq_true, beq_iff_eq] at he
            rcases he with rfl | rfl <;> simp
  · cases hpower with
    | none => exact exponent_eq_nil_of_stops hstop.1
    | power he hsign hne hds => exact (exponent_append_iff he hsign hne hds).mpr hdigit

theorem any_head?_eq_false {p : Char → Bool} {s : List Char} :
    s.head?.any p = false ↔ Stops p s := by
  cases s <;> simp [stops_nil]

theorem isHexPrefix_append {text s : List Char} (hne : text ≠ []) (hs : Stops isIdChar s) :
    isHexPrefix (text ++ s) = isHexPrefix text := by
  match text, s with
  | [], _ => exact absurd rfl hne
  | [c], [] => rfl
  | [c], x :: s =>
      rw [stops_cons] at hs
      have hx : (x == 'x' || x == 'X') = false := by
        rw [Bool.eq_false_iff]
        intro hx
        simp only [Bool.or_eq_true, beq_iff_eq] at hx
        rcases hx with rfl | rfl <;> exact absurd hs (by decide)
      by_cases hc : c = '0'
      · subst hc
        exact hx
      · simp [isHexPrefix, hc]
  | a :: b :: text, s =>
      by_cases ha : a = '0'
      · subst ha
        rfl
      · simp [isHexPrefix, ha]

theorem isHexPrefix_of_append {text s : List Char} (h : isHexPrefix (text ++ s) = false) :
    isHexPrefix text = false := by
  match text with
  | [] => rfl
  | [c] => by_cases hc : c = '0' <;> simp [isHexPrefix]
  | a :: b :: text =>
      by_cases ha : a = '0'
      · subst ha
        exact h
      · simp [isHexPrefix, ha]

/-- The last character of a number is its point exactly when nothing follows it. -/
theorem getLast?_parts {whole point power : List Char} (hpoint : IsPoint point)
    (hpower : IsPower power) (hnot : ¬ (point = [] ∧ power = [])) :
    (whole ++ point ++ power).getLast? = some '.' ↔ point = ['.'] ∧ power = [] := by
  have hdigits : ∀ (pre ds : List Char), (∀ d ∈ ds, d.isDigit = true) → ds ≠ [] →
      (pre ++ ds).getLast? ≠ some '.' := by
    intro pre ds hds hne hlast
    rw [List.getLast?_append_of_ne_nil _ hne] at hlast
    have hmem := List.mem_of_getLast? hlast
    exact absurd (hds '.' hmem) (by decide)
  cases hpower with
  | none =>
      cases hpoint with
      | none => exact absurd ⟨rfl, rfl⟩ hnot
      | @point ds hds =>
          cases ds with
          | nil => simp
          | cons d ds =>
              have hlast := hdigits (whole ++ ['.']) (d :: ds) hds (by simp)
              simpa using hlast
  | @power e sign ds he hsign hne hds =>
      have hlast := hdigits (e :: sign) ds hds hne
      simpa using hlast

/-- What may stand behind a number. -/
def NumberFollows (t : Token) (s : List Char) : Prop :=
  Stops isIdChar s ∧ (t.kind = .int → isHexPrefix t.text = false → ¬ PointAhead s) ∧
    (t.kind = .float → t.text.getLast? = some '.' → s.head? ≠ some '.')

theorem numberFollows_iff {whole point power s : List Char} (hpoint : IsPoint point)
    (hpower : IsPower power) (hhex : isHexPrefix (whole ++ point ++ power) = false) :
    NumberFollows ⟨if point = [] ∧ power = [] then .int else .float, whole ++ point ++ power⟩ s ↔
      PartsStop point power s := by
  rw [NumberFollows, PartsStop]
  by_cases hint : point = [] ∧ power = []
  · obtain ⟨rfl, rfl⟩ := hint
    have hhex' : isHexPrefix whole = false := by simpa using hhex
    simp [hhex']
  · simp only [if_neg hint, reduceCtorEq, false_implies, true_and, forall_const,
      getLast?_parts hpoint hpower hint]
    tauto

theorem number_eq_some_iff {t : Token} {s : List Char} :
    number (t.text ++ s) = some t ↔
      (if isHexPrefix (t.text ++ s) then hexadecimal (t.text ++ s)
        else decimal (t.text ++ s)) = some t ∧ Stops isIdStart s := by
  rw [number]
  split
  · rename_i hnone
    simp [hnone]
  · rename_i t' hsome
    rw [hsome]
    constructor
    · intro h
      split at h
      · cases h
      · rename_i hany
        injection h with h
        subst h
        rw [List.drop_left, Bool.not_eq_true] at hany
        exact ⟨rfl, any_head?_eq_false.mp hany⟩
    · rintro ⟨h, hstop⟩
      injection h with h
      subst h
      rw [List.drop_left, any_head?_eq_false.mpr hstop]
      simp

theorem hexadecimal_eq_some_iff {t : Token} {s : List Char}
    (hhex : isHexPrefix (t.text ++ s) = true) :
    hexadecimal (t.text ++ s) = some t ↔ ∃ x ds, ds ≠ [] ∧ t = ⟨.int, '0' :: x :: ds⟩ ∧
      (∀ d ∈ ds, isHexDigit d = true) ∧ Stops isHexDigit s := by
  rw [hexadecimal]
  constructor
  · intro h
    split at h
    · cases h
    · rename_i hne
      injection h with h
      cases htext : t.text ++ s with
      | nil => rw [htext] at hhex; cases hhex
      | cons a r =>
          cases r with
          | nil => rw [htext] at hhex; simp [isHexPrefix] at hhex
          | cons x r =>
              have ha : a = '0' := by
                rw [htext] at hhex
                by_contra ha
                simp [isHexPrefix, ha] at hhex
              subst ha
              obtain ⟨ds, hds⟩ : ∃ ds, ds = r.takeWhile isHexDigit := ⟨_, rfl⟩
              rw [htext] at h hne
              simp only [List.drop_succ_cons, List.drop_zero, List.take_succ_cons, List.take_zero,
                ← hds] at h hne
              rw [← h] at htext
              simp only [List.cons_append, List.nil_append, List.cons.injEq, true_and] at htext
              rw [← htext] at hds
              obtain ⟨hall, hstop⟩ := takeWhile_append_eq_iff.mp hds.symm
              exact ⟨x, ds, hne, h.symm, hall, hstop⟩
  · rintro ⟨x, ds, hne, rfl, hall, hstop⟩
    have htake := takeWhile_append_eq_iff.mpr ⟨hall, hstop⟩
    simp [htake, hne]

/-- A number read off one text is read off another exactly when the text
behind it may follow. -/
theorem number_congr {t : Token} {s₀ : List Char} (hne : t.text ≠ [])
    (h : number (t.text ++ s₀) = some t) (s : List Char) :
    number (t.text ++ s) = some t ↔ NumberFollows t s := by
  obtain ⟨hread, hsuffix₀⟩ := number_eq_some_iff.mp h
  have hstart : Stops isIdChar s → Stops isIdStart s := fun hs ↦
    hs.mono fun c ↦ idStart_isIdChar
  by_cases hhex₀ : isHexPrefix (t.text ++ s₀) = true
  · rw [if_pos hhex₀] at hread
    obtain ⟨x, ds, hds, rfl, hall, -⟩ := (hexadecimal_eq_some_iff hhex₀).mp hread
    have hhex : ∀ s, isHexPrefix ('0' :: x :: ds ++ s) = isHexPrefix ('0' :: x :: ds) :=
      fun s ↦ rfl
    rw [hhex] at hhex₀
    rw [number_eq_some_iff]
    simp only [hhex, hhex₀, if_true]
    rw [hexadecimal_eq_some_iff (t := ⟨.int, '0' :: x :: ds⟩) (by exact hhex₀)]
    constructor
    · rintro ⟨⟨x', ds', -, -, -, hstop⟩, hsuffix⟩
      refine ⟨?_, fun _ hne ↦ by simp [hhex₀] at hne, fun hkind ↦ by cases hkind⟩
      intro c hc
      rw [Bool.eq_false_iff]
      intro hid
      rcases isIdChar_iff.mp hid with hid | hid
      · rw [hsuffix c hc] at hid
        cases hid
      · have hstop' := hstop c hc
        simp [isHexDigit, hid] at hstop'
    · rintro ⟨hstop, -⟩
      exact ⟨⟨x, ds, hds, rfl, hall, hstop.mono fun c ↦ hexDigit_isIdChar⟩, hstart hstop⟩
  · rw [if_neg hhex₀] at hread
    rw [Bool.not_eq_true] at hhex₀
    have hhex := isHexPrefix_of_append hhex₀
    obtain ⟨whole, point, power, ht, hparts⟩ := decimal_eq_some_iff.mp hread
    have hpower := isPower_of_exponent hparts.exponent_eq
    have hpoint := isPoint_fraction (point ++ power ++ s₀)
    rw [hparts.fraction_eq] at hpoint
    have htext : t.text = whole ++ point ++ power := by rw [ht]
    rw [htext] at hhex
    have hfollows : NumberFollows t s ↔ PartsStop point power s := by
      rw [ht]
      exact numberFollows_iff hpoint hpower hhex
    rw [hfollows, number_eq_some_iff]
    constructor
    · rintro ⟨hread', hsuffix⟩
      by_cases hhex' : isHexPrefix (t.text ++ s) = true
      · exfalso
        rw [if_pos hhex'] at hread'
        obtain ⟨x, ds, -, rfl, -, -⟩ := (hexadecimal_eq_some_iff hhex').mp hread'
        rw [← htext] at hhex
        have hsame : isHexPrefix ('0' :: x :: ds ++ s) = isHexPrefix ('0' :: x :: ds) := rfl
        rw [hsame, hhex] at hhex'
        cases hhex'
      · rw [if_neg hhex'] at hread'
        obtain ⟨whole', point', power', ht', hparts'⟩ := decimal_eq_some_iff.mp hread'
        have hstop' := hparts'.stops hsuffix
        have hhex'' : isHexPrefix (whole' ++ point' ++ power') = false := by
          rw [← htext] at hhex
          rw [ht'] at hhex
          exact hhex
        have hpower' := isPower_of_exponent hparts'.exponent_eq
        have hpoint' := isPoint_fraction (point' ++ power' ++ s)
        rw [hparts'.fraction_eq] at hpoint'
        rw [← hfollows, ht']
        exact (numberFollows_iff hpoint' hpower' hhex'').mpr hstop'
    · intro hstop
      have hsame := isHexPrefix_append hne hstop.1
      rw [← htext] at hhex
      rw [hsame, hhex]
      exact ⟨decimal_eq_some_iff.mpr ⟨whole, point, power, ht, hparts.congr hstop⟩,
        hstart hstop.1⟩

end TinyCPlus.Compiler
