import TinyCPlus.Compiler.Positions

/-!
# Whether the REPL has a whole cell (`tooling.c`)

`repl_balance` scans a source for brackets with its own rules for literals and
comments.  The scan agrees with `lex` on every source that `lex` accepts.
-/

namespace TinyCPlus.Compiler

open TinyCPlus.Library

/-! ## The scan -/

/-- The variables of `repl_balance`; `quote` is `none` where the source has 0.  The token limit
of `lex` keeps `depth` far from the ends of an `int`. -/
structure BalanceState where
  depth : ℤ
  quote : Option Char
  block : ℕ
deriving DecidableEq, Repr

/-- Notes for one byte whether the scan skips it. -/
def mark (skipped : Bool) (r : BalanceState × List Bool) : BalanceState × List Bool :=
  (r.1, skipped :: r.2)

/-- The loop of `repl_balance`, with a mark for every byte that it skips as a part of a
literal or comment.  `line` says that it is in the inner loop over a line comment. -/
def balanceLoop (b : BalanceState) (line : Bool) : List Char → BalanceState × List Bool
  | [] => (b, [])
  | c :: s =>
      if line then mark (c != '\n') (balanceLoop b (c != '\n') s)
      else
        match b.quote with
        | some q =>
            match s with
            | d :: s =>
                if c = '\\' then mark true (mark true (balanceLoop b false s))
                else
                  mark true
                    (balanceLoop { b with quote := if c = q then none else some q } false (d :: s))
            | [] => mark true (balanceLoop { b with quote := if c = q then none else some q } false [])
        | none =>
            if b.block ≠ 0 then
              match s with
              | d :: s =>
                  if c = '/' ∧ d = '*' then
                    mark true (mark true (balanceLoop { b with block := b.block + 1 } false s))
                  else if c = '*' ∧ d = '/' then
                    mark true (mark true (balanceLoop { b with block := b.block - 1 } false s))
                  else mark true (balanceLoop b false (d :: s))
              | [] => mark true (balanceLoop b false [])
            else if c = '/' ∧ s.head? = some '/' then mark true (balanceLoop b true s)
            else if c = '/' ∧ s.head? = some '*' then
              match s with
              | _ :: s => mark true (mark true (balanceLoop { b with block := b.block + 1 } false s))
              | [] => (b, [])
            else if c = '"' ∨ c = '\'' then
              mark true (balanceLoop { b with quote := some c } false s)
            else
              let depth := if c = '\x7b' ∨ c = '(' ∨ c = '[' then b.depth + 1 else b.depth
              let depth := if c = '\x7d' ∨ c = ')' ∨ c = ']' then depth - 1 else depth
              mark false (balanceLoop { b with depth := depth } false s)

def replBalance (file : List Char) : Bool :=
  let b := (balanceLoop ⟨0, none, 0⟩ false (cString file)).1
  0 < b.depth || b.block ≠ 0 || b.quote.isSome

/-- For every byte of a source, whether `repl_balance` skips it. -/
def skippedBytes (file : List Char) : List Bool :=
  (balanceLoop ⟨0, none, 0⟩ false (cString file)).2

/-! ## What the lexer makes of the brackets -/

def openingBracket (t : Token) : Bool :=
  t.kind = .op ∧ (t.text = ['\x7b'] ∨ t.text = ['('] ∨ t.text = ['['])

def closingBracket (t : Token) : Bool :=
  t.kind = .op ∧ (t.text = ['\x7d'] ∨ t.text = [')'] ∨ t.text = [']'])

/-- Comments and literals. -/
def Lexeme.skipped : Lexeme → Bool
  | .blank _ => false
  | .comment _ => true
  | .token t => t.kind = .string || t.kind = .char

/-! ## Marks -/

/-- Notes for `n` bytes whether the scan skips them. -/
def marks (n : ℕ) (skipped : Bool) (r : BalanceState × List Bool) : BalanceState × List Bool :=
  (r.1, List.replicate n skipped ++ r.2)

theorem mark_eq (skipped : Bool) (r : BalanceState × List Bool) :
    mark skipped r = marks 1 skipped r := rfl

theorem marks_marks (m n : ℕ) (skipped : Bool) (r : BalanceState × List Bool) :
    marks m skipped (marks n skipped r) = marks (m + n) skipped r := by
  rw [marks, marks, marks, List.replicate_add, List.append_assoc]

/-! ## Line comments -/

theorem balanceLoop_line_cons (b : BalanceState) (c : Char) (s : List Char) :
    balanceLoop b true (c :: s) = mark (c != '\n') (balanceLoop b (c != '\n') s) := by
  rw [balanceLoop.eq_def]
  exact if_pos rfl

theorem balanceLoop_line (b : BalanceState) {text : List Char} (htext : '\n' ∉ text)
    (s : List Char) :
    balanceLoop b true (text ++ s) = marks text.length true (balanceLoop b true s) := by
  induction text with
  | nil => rfl
  | cons c text ih =>
      rw [List.mem_cons, not_or] at htext
      have hc : (c != '\n') = true := by simpa using fun h ↦ htext.1 h.symm
      rw [List.cons_append, balanceLoop_line_cons, hc, ih htext.2, mark_eq, marks_marks,
        List.length_cons, Nat.add_comm]

/-! ## Block comments -/

theorem balanceLoop_block_cons (depth : ℤ) (level : ℕ) (c d : Char) (s : List Char) :
    balanceLoop ⟨depth, none, level + 1⟩ false (c :: d :: s) =
      if c = '/' ∧ d = '*' then marks 2 true (balanceLoop ⟨depth, none, level + 2⟩ false s)
      else if c = '*' ∧ d = '/' then marks 2 true (balanceLoop ⟨depth, none, level⟩ false s)
      else marks 1 true (balanceLoop ⟨depth, none, level + 1⟩ false (d :: s)) := by
  rw [balanceLoop.eq_def]
  rfl

theorem blockComment_ne_nil {level : ℕ} {s t : List Char}
    (h : blockComment (level + 1) s = some t) : t ≠ [] := by
  rintro rfl
  cases s with
  | nil => cases h
  | cons c s =>
      unfold blockComment at h
      split at h <;> simp_all

/-- The scan leaves a block comment where the lexer does. -/
theorem balanceLoop_block (depth : ℤ) {level : ℕ} {s₀ t : List Char}
    (h : blockComment level s₀ = some t) (s : List Char) :
    balanceLoop ⟨depth, none, level⟩ false (t ++ s) =
      marks t.length true (balanceLoop ⟨depth, none, 0⟩ false s) := by
  fun_induction blockComment level s₀ generalizing t with
  | case1 =>
      cases h
      rfl
  | case2 => cases h
  | case3 level s₀ ih =>
      obtain ⟨t, ht, rfl⟩ := Option.map_eq_some_iff.mp h
      rw [List.cons_append, List.cons_append, balanceLoop_block_cons, if_pos ⟨rfl, rfl⟩, ih ht,
        marks_marks, Nat.add_comm]
      rfl
  | case4 level s₀ ih =>
      obtain ⟨t, ht, rfl⟩ := Option.map_eq_some_iff.mp h
      rw [List.cons_append, List.cons_append, balanceLoop_block_cons, if_neg (by decide),
        if_pos ⟨rfl, rfl⟩, ih ht, marks_marks, Nat.add_comm]
      rfl
  | case5 level c s₀ hopen hclose ih =>
      obtain ⟨t, ht, rfl⟩ := Option.map_eq_some_iff.mp h
      -- The byte behind `c` is the same for both scanners.
      obtain ⟨d, t', rfl⟩ := List.exists_cons_of_ne_nil (blockComment_ne_nil ht)
      obtain ⟨r, rfl⟩ := blockComment_isPrefix ht
      have hopen' : ¬ (c = '/' ∧ d = '*') := by
        rintro ⟨rfl, rfl⟩
        exact hopen (t' ++ r) rfl rfl
      have hclose' : ¬ (c = '*' ∧ d = '/') := by
        rintro ⟨rfl, rfl⟩
        exact hclose (t' ++ r) rfl rfl
      have hrest := ih ht
      rw [List.cons_append] at hrest
      rw [List.cons_append, List.cons_append, balanceLoop_block_cons, if_neg hopen',
        if_neg hclose', hrest, marks_marks, Nat.add_comm]
      rfl

/-! ## Literals -/

/-- A byte within a literal that neither escapes nor ends it. -/
theorem balanceLoop_quoted (depth : ℤ) {q c : Char} (hescape : c ≠ '\\') (hend : c ≠ q)
    (s : List Char) :
    balanceLoop ⟨depth, some q, 0⟩ false (c :: s) =
      marks 1 true (balanceLoop ⟨depth, some q, 0⟩ false s) := by
  rw [balanceLoop.eq_def]
  cases s with
  | nil => simp only [Bool.false_eq_true, if_false, if_neg hend, mark_eq]
  | cons d s => simp only [Bool.false_eq_true, if_false, if_neg hescape, if_neg hend, mark_eq]

theorem balanceLoop_escape (depth : ℤ) (q d : Char) (s : List Char) :
    balanceLoop ⟨depth, some q, 0⟩ false ('\\' :: d :: s) =
      marks 2 true (balanceLoop ⟨depth, some q, 0⟩ false s) := by
  rw [balanceLoop.eq_def]
  rfl

theorem balanceLoop_unquote (depth : ℤ) {q : Char} (hq : q = '"' ∨ q = '\'') (s : List Char) :
    balanceLoop ⟨depth, some q, 0⟩ false (q :: s) =
      marks 1 true (balanceLoop ⟨depth, none, 0⟩ false s) := by
  have hescape : q ≠ '\\' := by rcases hq with rfl | rfl <;> decide
  rw [balanceLoop.eq_def]
  cases s with
  | nil => simp only [Bool.false_eq_true, if_false, if_true, mark_eq]
  | cons d s => simp only [Bool.false_eq_true, if_false, if_neg hescape, if_true, mark_eq]

/-- The scan leaves a literal where the lexer does. -/
theorem balanceLoop_literal (depth : ℤ) {q : Char} (hq : q = '"' ∨ q = '\'')
    {s₀ body : List Char} {count : ℕ} (h : literalBody q s₀ = some (body, count))
    (s : List Char) :
    balanceLoop ⟨depth, some q, 0⟩ false (body ++ s) =
      marks body.length true (balanceLoop ⟨depth, none, 0⟩ false s) := by
  have hhex : ∀ c, isHexDigit c = true → c ≠ '\\' ∧ c ≠ q := by
    rintro c hc
    constructor
    · rintro rfl
      cases hc
    · rintro rfl
      rcases hq with rfl | rfl <;> cases hc
  fun_induction literalBody q s₀ generalizing body count with
  | case1 => cases h
  | case2 =>
      cases h
      exact balanceLoop_unquote depth hq s
  | case3 => cases h
  | case4 a b s₀ hab hne hline ih =>
      obtain ⟨⟨body, n⟩, hbody, heq⟩ := Option.map_eq_some_iff.mp h
      cases heq
      simp only [List.cons_append, List.length_cons]
      rw [balanceLoop_escape, balanceLoop_quoted depth (hhex a hab.1).1 (hhex a hab.1).2,
        balanceLoop_quoted depth (hhex b hab.2).1 (hhex b hab.2).2, ih hbody, marks_marks,
        marks_marks, marks_marks]
      congr 1
      omega
  | case5 => cases h
  | case6 e s₀ hno he hne hline ih =>
      obtain ⟨⟨body, n⟩, hbody, heq⟩ := Option.map_eq_some_iff.mp h
      cases heq
      simp only [List.cons_append, List.length_cons]
      rw [balanceLoop_escape, ih hbody, marks_marks]
      congr 1
      omega
  | case7 => cases h
  | case8 => cases h
  | case9 c s₀ hne hline hescape ih =>
      obtain ⟨⟨body, n⟩, hbody, heq⟩ := Option.map_eq_some_iff.mp h
      cases heq
      simp only [List.cons_append, List.length_cons]
      rw [balanceLoop_quoted depth hescape hne, ih hbody, marks_marks]
      congr 1
      omega

/-! ## Everything else -/

/-- What a byte outside literals and comments adds to the depth. -/
def weight (c : Char) : ℤ :=
  (if c = '\x7b' ∨ c = '(' ∨ c = '[' then 1 else 0) -
    (if c = '\x7d' ∨ c = ')' ∨ c = ']' then 1 else 0)

theorem balanceLoop_plain (depth : ℤ) {c : Char} {s : List Char}
    (hslash : c = '/' → s.head? ≠ some '/' ∧ s.head? ≠ some '*') (hquote : c ≠ '"' ∧ c ≠ '\'') :
    balanceLoop ⟨depth, none, 0⟩ false (c :: s) =
      marks 1 false (balanceLoop ⟨depth + weight c, none, 0⟩ false s) := by
  have hline : ¬ (c = '/' ∧ s.head? = some '/') := fun h ↦ (hslash h.1).1 h.2
  have hblock : ¬ (c = '/' ∧ s.head? = some '*') := fun h ↦ (hslash h.1).2 h.2
  have hquote' : ¬ (c = '"' ∨ c = '\'') := not_or.mpr hquote
  have hdepth : (if c = '\x7d' ∨ c = ')' ∨ c = ']' then
      (if c = '\x7b' ∨ c = '(' ∨ c = '[' then depth + 1 else depth) - 1
      else if c = '\x7b' ∨ c = '(' ∨ c = '[' then depth + 1 else depth) = depth + weight c := by
    rw [weight]
    split <;> split <;> ring
  rw [balanceLoop.eq_def]
  simp only [Bool.false_eq_true, if_false, ne_eq, not_true_eq_false, if_neg hline, if_neg hblock,
    if_neg hquote', hdepth, mark_eq]

/-- Behind a line comment there is nothing, or the newline that ends it. -/
theorem balanceLoop_line_end (depth : ℤ) {s : List Char} (hs : ∀ c ∈ s.head?, c = '\n') :
    balanceLoop ⟨depth, none, 0⟩ true s = balanceLoop ⟨depth, none, 0⟩ false s := by
  cases s with
  | nil => rfl
  | cons c s =>
      obtain rfl : c = '\n' := hs c rfl
      have hweight : weight '\n' = 0 := by decide
      rw [balanceLoop_line_cons, balanceLoop_plain depth (fun h ↦ absurd h (by decide)) (by decide),
        hweight, add_zero]
      rfl

/-- Bytes that mean nothing to the scan. -/
def Inert (c : Char) : Prop := c ≠ '/' ∧ c ≠ '"' ∧ c ≠ '\'' ∧ weight c = 0

instance (c : Char) : Decidable (Inert c) :=
  inferInstanceAs (Decidable (c ≠ '/' ∧ c ≠ '"' ∧ c ≠ '\'' ∧ weight c = 0))

theorem balanceLoop_inert (depth : ℤ) {text : List Char} (htext : ∀ c ∈ text, Inert c)
    (s : List Char) :
    balanceLoop ⟨depth, none, 0⟩ false (text ++ s) =
      marks text.length false (balanceLoop ⟨depth, none, 0⟩ false s) := by
  induction text with
  | nil => rfl
  | cons c text ih =>
      obtain ⟨hslash, hdouble, hsingle, hweight⟩ := htext c List.mem_cons_self
      rw [List.cons_append, balanceLoop_plain depth (fun h ↦ absurd h hslash) ⟨hdouble, hsingle⟩,
        hweight, add_zero, ih fun d hd ↦ htext d (List.mem_cons_of_mem c hd), marks_marks,
        Nat.add_comm]
      rfl

/-- The bytes that mean something to the scan. -/
def special : List Char := ['/', '"', '\'', '\x7b', '(', '[', '\x7d', ')', ']']

/-- A class of bytes without slash, quote and bracket is inert. -/
theorem inert_of_class {p : Char → Bool}
    (hp : special.all fun d ↦ !p d) {c : Char} (h : p c = true) : Inert c := by
  have hne : ∀ d ∈ special, c ≠ d := by
    rintro d hd rfl
    have hd' := List.all_eq_true.mp hp c hd
    rw [h] at hd'
    cases hd'
  have hopen : ¬ (c = '\x7b' ∨ c = '(' ∨ c = '[') := by
    simp only [not_or]
    exact ⟨hne _ (by decide), hne _ (by decide), hne _ (by decide)⟩
  have hclose : ¬ (c = '\x7d' ∨ c = ')' ∨ c = ']') := by
    simp only [not_or]
    exact ⟨hne _ (by decide), hne _ (by decide), hne _ (by decide)⟩
  refine ⟨hne _ (by decide), hne _ (by decide), hne _ (by decide), ?_⟩
  rw [weight, if_neg hopen, if_neg hclose, sub_self]

theorem inert_of_isIdChar {c : Char} (h : isIdChar c = true) : Inert c :=
  inert_of_class (by decide) h

theorem inert_of_isSpace {c : Char} (h : isSpace c = true) : Inert c :=
  inert_of_class (by decide) h

/-- A number is made of digits, letters, points and signs. -/
theorem inert_of_number {s : List Char} {t : Token} (h : number (t.text ++ s) = some t) :
    ∀ c ∈ t.text, Inert c := by
  obtain ⟨hread, -⟩ := number_eq_some_iff.mp h
  split at hread
  · rename_i hhex
    obtain ⟨x, ds, -, rfl, hall, -⟩ := (hexadecimal_eq_some_iff hhex).mp hread
    have hx : (x == 'x' || x == 'X') = true := hhex
    simp only [Bool.or_eq_true, beq_iff_eq] at hx
    intro c hc
    simp only [List.mem_cons] at hc
    rcases hc with rfl | rfl | hc
    · decide
    · rcases hx with rfl | rfl <;> decide
    · exact inert_of_isIdChar (hexDigit_isIdChar (hall c hc))
  · obtain ⟨whole, point, power, rfl, hparts⟩ := decimal_eq_some_iff.mp hread
    have hpoint := isPoint_fraction (point ++ power ++ s)
    rw [hparts.fraction_eq] at hpoint
    have hdigit : ∀ ds : List Char, (∀ d ∈ ds, d.isDigit = true) → ∀ c ∈ ds, Inert c :=
      fun ds hds c hc ↦ inert_of_isIdChar (digit_isIdChar (hds c hc))
    intro c hc
    simp only [List.mem_append] at hc
    rcases hc with (hc | hc) | hc
    · exact hdigit _ hparts.digits c hc
    · cases hpoint with
      | none => cases hc
      | point hds =>
          rcases List.mem_cons.mp hc with rfl | hc
          · decide
          · exact hdigit _ hds c hc
    · cases isPower_of_exponent hparts.exponent_eq with
      | none => cases hc
      | power he hsign _ hds =>
          simp only [Bool.or_eq_true, beq_iff_eq] at he
          rcases List.mem_append.mp hc with hc | hc
          · rcases List.mem_cons.mp hc with rfl | hc
            · rcases he with rfl | rfl <;> decide
            · rcases hsign with rfl | rfl | rfl
              · cases hc
              · rw [List.mem_singleton.mp hc]
                decide
              · rw [List.mem_singleton.mp hc]
                decide
          · exact hdigit _ hds c hc

/-! ## One lexeme -/

/-- What a lexeme adds to the depth. -/
def Lexeme.weight : Lexeme → ℤ
  | .token t => (if openingBracket t then 1 else 0) - (if closingBracket t then 1 else 0)
  | _ => 0

/-- Every operator weighs what its first byte weighs, and the others mean nothing. -/
theorem opTexts_weight : ∀ text ∈ opTexts, ∃ c r, text = c :: r ∧ c ≠ '"' ∧ c ≠ '\'' ∧
    (∀ d ∈ r, Inert d) ∧ weight c = Lexeme.weight (.token ⟨.op, text⟩) := by
  have hall : ∀ text ∈ opTexts, text ≠ [] ∧ text.headD '+' ≠ '"' ∧ text.headD '+' ≠ '\'' ∧
      text.tail.all (fun d ↦ Inert d) = true ∧
      weight (text.headD '+') = Lexeme.weight (.token ⟨.op, text⟩) := by decide +kernel
  intro text htext
  obtain ⟨hne, hdouble, hsingle, hinert, hweight⟩ := hall text htext
  obtain ⟨c, r, rfl⟩ := List.exists_cons_of_ne_nil hne
  refine ⟨c, r, rfl, hdouble, hsingle, fun d hd ↦ ?_, hweight⟩
  simpa using List.all_eq_true.mp hinert d hd

theorem weight_of_kind {t : Token} (h : t.kind ≠ .op) : Lexeme.weight (.token t) = 0 := by
  simp [Lexeme.weight, openingBracket, closingBracket, h]

/-- The scan is back outside literals and comments behind every lexeme, and has skipped it
exactly if it is one. -/
theorem balanceLoop_lexeme (depth : ℤ) {x : Lexeme} {s : List Char}
    (h : lexeme (x.text ++ s) = some x) :
    balanceLoop ⟨depth, none, 0⟩ false (x.text ++ s) =
      marks x.text.length x.skipped (balanceLoop ⟨depth + x.weight, none, 0⟩ false s) := by
  cases x with
  | blank c =>
      have hblank : ∀ d ∈ [c], Inert d := by
        intro d hd
        rw [List.mem_singleton.mp hd]
        exact inert_of_isSpace (Formatter.isSpace_of_lexeme h)
      have hweight : Lexeme.weight (.blank c) = 0 := rfl
      rw [hweight, add_zero]
      exact balanceLoop_inert depth hblank s
  | comment text =>
      have hweight : Lexeme.weight (.comment text) = 0 := rfl
      rw [hweight, add_zero]
      rcases Formatter.comment_cases h with ⟨body, rfl, hbody, htext⟩ | ⟨r, t, rfl, hs, ht⟩
      · have hopen : balanceLoop ⟨depth, none, 0⟩ false ('/' :: '/' :: (body ++ s)) =
            marks 1 true (balanceLoop ⟨depth, none, 0⟩ true ('/' :: (body ++ s))) := by
          rw [balanceLoop.eq_def]
          rfl
        have hline := balanceLoop_line ⟨depth, none, 0⟩
          (fun hmem ↦ hbody (List.mem_cons_of_mem '/' hmem)) s
        rw [List.cons_append] at hline
        have hend := balanceLoop_line_end depth (gap_of_line htext)
        change balanceLoop _ false ('/' :: '/' :: (body ++ s)) = _
        rw [hopen, hline, hend, marks_marks, Nat.add_comm]
        rfl
      · have hopen : balanceLoop ⟨depth, none, 0⟩ false ('/' :: '*' :: (t ++ s)) =
            marks 2 true (balanceLoop ⟨depth, none, 1⟩ false (t ++ s)) := by
          rw [balanceLoop.eq_def]
          rfl
        change balanceLoop _ false ('/' :: '*' :: (t ++ s)) = _
        rw [hopen, balanceLoop_block depth ht, marks_marks, Nat.add_comm]
        rfl
  | token t =>
      have hread := reads_of_lexeme h
      cases hread with
      | id hc hs hall =>
          rw [weight_of_kind (by simp), add_zero]
          exact balanceLoop_inert depth (fun d hd ↦ inert_of_isIdChar (hall d hd)) s
      | number hc ht hkind hnumber =>
          have hskipped : Lexeme.skipped (.token t) = false := by
            rcases hkind with hkind | hkind <;> simp [Lexeme.skipped, hkind]
          rw [weight_of_kind (by rcases hkind with hkind | hkind <;> simp [hkind]), add_zero,
            hskipped]
          exact balanceLoop_inert depth (inert_of_number hnumber) s
      | literal hc hkind ht hread =>
          rename_i c body
          have hskipped : Lexeme.skipped (.token t) = true := by
            rcases hkind with hkind | hkind <;> simp [Lexeme.skipped, hkind]
          obtain ⟨body', count, hbody, htext⟩ := literal_text (hread s)
          obtain rfl : body = body' := by
            rw [ht] at htext
            injection htext
          have hopen : balanceLoop ⟨depth, none, 0⟩ false (c :: (body ++ s)) =
              marks 1 true (balanceLoop ⟨depth, some c, 0⟩ false (body ++ s)) := by
            rcases hc with rfl | rfl
            · rw [balanceLoop.eq_def]
              rfl
            · rw [balanceLoop.eq_def]
              rfl
          rw [weight_of_kind (by rcases hkind with hkind | hkind <;> simp [hkind]), add_zero,
            hskipped]
          change balanceLoop _ false (t.text ++ s) = marks t.text.length true _
          rw [ht, List.cons_append, hopen, balanceLoop_literal depth hc hbody, marks_marks,
            Nat.add_comm]
          rfl
      | op htext =>
          rename_i text
          obtain ⟨c, r, rfl, hdouble, hsingle, hinert, hweight⟩ := opTexts_weight text htext
          have hslash : c = '/' → (r ++ s).head? ≠ some '/' ∧ (r ++ s).head? ≠ some '*' := by
            rintro rfl
            have hlexeme : lexeme ('/' :: (r ++ s)) = some (.token ⟨.op, '/' :: r⟩) := h
            constructor
            · intro hhead
              rw [lexeme, if_neg (by decide), if_pos ⟨rfl, hhead⟩] at hlexeme
              cases hlexeme
            · intro hhead
              rw [lexeme, if_neg (by decide), if_neg (by simp [hhead]),
                if_pos ⟨rfl, hhead⟩] at hlexeme
              obtain ⟨t, -, ht⟩ := Option.map_eq_some_iff.mp hlexeme
              cases ht
          change balanceLoop _ false (c :: (r ++ s)) = _
          rw [balanceLoop_plain depth hslash ⟨hdouble, hsingle⟩, hweight,
            balanceLoop_inert _ hinert, marks_marks, Nat.add_comm]
          rfl

/-! ## Whole sources -/

/-- The marks of the lexemes of a source. -/
def skippedOf (lexemes : List Lexeme) : List Bool :=
  lexemes.flatMap fun x ↦ List.replicate x.text.length x.skipped

theorem balanceLoop_lexemes (depth : ℤ) {ls : List Lexeme} (h : lexer.AllEnd ls) :
    balanceLoop ⟨depth, none, 0⟩ false (lexer.render ls) =
      (⟨depth + (ls.map Lexeme.weight).sum, none, 0⟩, skippedOf ls) := by
  induction ls generalizing depth with
  | nil =>
      rw [List.map_nil, List.sum_nil, add_zero]
      rfl
  | cons x ls ih =>
      rw [Tokenizer.render_cons]
      change balanceLoop _ false (x.text ++ lexer.render ls) = _
      rw [balanceLoop_lexeme depth h.1, ih _ h.2, List.map_cons, List.sum_cons, ← add_assoc]
      rfl

/-- The lexemes weigh what the bracket tokens do. -/
theorem weight_eq (ls : List Lexeme) :
    (ls.map Lexeme.weight).sum =
      ((tokensOf ls).countP openingBracket : ℤ) - (tokensOf ls).countP closingBracket := by
  induction ls with
  | nil => rfl
  | cons x ls ih =>
      rw [List.map_cons, List.sum_cons, ih]
      cases x with
      | token t =>
          have htokens : tokensOf (.token t :: ls) = t :: tokensOf ls := rfl
          rw [htokens, List.countP_cons, List.countP_cons, Lexeme.weight]
          push_cast
          split <;> split <;> ring
      | blank c => exact zero_add _
      | comment text => exact zero_add _

/-- The byte order mark means nothing to the scan. -/
theorem balanceLoop_byteOrderMark (s : List Char) :
    balanceLoop ⟨0, none, 0⟩ false (byteOrderMark ++ s) =
      marks 3 false (balanceLoop ⟨0, none, 0⟩ false s) := by
  have hinert : byteOrderMark.all (fun d ↦ Inert d) = true := by decide
  refine balanceLoop_inert 0 (fun d hd ↦ ?_) s
  simpa using List.all_eq_true.mp hinert d hd

/-- On a source that `lex` accepts, `repl_balance` asks for more exactly if the source has
more opening than closing bracket tokens, and the bytes it skips are those of the literals
and comments. -/
theorem replBalance_iff {file : List Char} {tokens : List (Token × Loc)}
    (h : lex file = some tokens) :
    (replBalance file = true ↔
      tokens.countP (fun t ↦ closingBracket t.1) < tokens.countP (fun t ↦ openingBracket t.1)) ∧
      ∃ lexemes, lexer.scan (skipByteOrderMark (cString file)) = some lexemes ∧
        tokens = tokensAt ⟨1, 1⟩ lexemes ∧
        skippedBytes file =
          (if byteOrderMark.isPrefixOf (cString file) then List.replicate 3 false else []) ++
            skippedOf lexemes := by
  rw [lex] at h
  split at h
  · cases h
  · rename_i ls hscan
    dsimp only at h
    split at h
    · cases h
      obtain ⟨hsource, hall⟩ := Tokenizer.allEnd_of_scan hscan
      have hloop := balanceLoop_lexemes 0 hall
      rw [zero_add, ← hsource, weight_eq] at hloop
      have hfile : balanceLoop ⟨0, none, 0⟩ false (cString file) =
          (⟨((tokensOf ls).countP openingBracket : ℤ) - (tokensOf ls).countP closingBracket,
            none, 0⟩,
            (if byteOrderMark.isPrefixOf (cString file) then List.replicate 3 false else []) ++
              skippedOf ls) := by
        have hmark := source_mark file
        by_cases hbom : byteOrderMark.isPrefixOf (cString file) = true
        · rw [if_pos hbom] at hmark ⊢
          rw [hmark, balanceLoop_byteOrderMark, hloop]
          rfl
        · rw [if_neg hbom] at hmark ⊢
          rw [hmark, List.nil_append, hloop]
          rfl
      have hcount : ∀ p : Token → Bool, p ⟨.eof, []⟩ = false →
          (tokensAt ⟨1, 1⟩ ls).countP (fun t ↦ p t.1) = (tokensOf ls).countP p := by
        intro p hp
        have hmap := congrArg (List.countP p) (tokensAt_map_fst ⟨1, 1⟩ ls)
        rw [List.countP_map, List.countP_append, List.countP_singleton, hp] at hmap
        exact hmap
      refine ⟨?_, ls, hscan, rfl, ?_⟩
      · rw [hcount _ rfl, hcount _ rfl, replBalance, hfile]
        simp
      · rw [skippedBytes, hfile]
    · cases h

/-- A bracket in a literal and one in a nested comment do not count. -/
theorem replBalance_iff_shown : ∃ tokens,
    lex "f(\"\\\")\" /* ( /* */ ) */".toList = some tokens ∧
      (replBalance "f(\"\\\")\" /* ( /* */ ) */".toList = true ↔
        tokens.countP (fun t ↦ closingBracket t.1) <
          tokens.countP (fun t ↦ openingBracket t.1)) := by
  refine ⟨[(⟨.id, ['f']⟩, ⟨1, 1⟩), (⟨.op, ['(']⟩, ⟨1, 2⟩),
    (⟨.string, "\"\\\")\"".toList⟩, ⟨1, 3⟩), (⟨.eof, []⟩, ⟨1, 24⟩)], by decide +kernel, ?_⟩
  exact (replBalance_iff
    (show lex "f(\"\\\")\" /* ( /* */ ) */".toList =
      some [(⟨.id, ['f']⟩, ⟨1, 1⟩), (⟨.op, ['(']⟩, ⟨1, 2⟩),
        (⟨.string, "\"\\\")\"".toList⟩, ⟨1, 3⟩), (⟨.eof, []⟩, ⟨1, 24⟩)] by decide +kernel)).1

end TinyCPlus.Compiler
