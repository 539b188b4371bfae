import TinyCPlus.Compiler.ExprTree

/-!
# Lexing a printed expression

The printed form of a tree is lexed as the tokens it was printed from.
-/

namespace TinyCPlus.Compiler

open TinyCPlus.Library

theorem spelled_op {text : List Char} (h : text ∈ opTexts) : Spelled ⟨.op, text⟩ := by
  have hop := (lexeme_op_append_iff h []).mpr fun e he hpre ↦
    (mem_extensions.mp he).1 (List.prefix_nil.mp hpre)
  simpa [Spelled] using hop

theorem PrefixOp.text_opTexts (op : PrefixOp) : op.text ∈ opTexts := by
  cases op <;> decide +kernel

theorem BinaryOp.text_opTexts (op : BinaryOp) : op.text ∈ opTexts :=
  binaryTexts_opTexts _ (mem_binaryTexts op.binary)

namespace Tree

theorem mem_parenthesize {parens : Bool} {ts : List Token} {t : Token}
    (h : t ∈ parenthesize parens ts) : t ∈ ts ∨ t = lparen ∨ t = rparen := by
  cases parens with
  | false => exact Or.inl h
  | true =>
      simp only [parenthesize, if_true, List.mem_append, List.mem_cons, List.not_mem_nil,
        or_false] at h
      tauto

/-- What holds of leaves, operators and parentheses holds of every printed token. -/
theorem forall_tokens {P : Token → Prop} (hid : ∀ name : Ident, P ⟨.id, name.text⟩)
    (hint : ∀ value : IntLiteral, P ⟨.int, value.text⟩)
    (hsign : ∀ op : PrefixOp, P ⟨.op, op.text⟩)
    (hbinary : ∀ op : BinaryOp, P ⟨.op, op.text⟩) (hlparen : P lparen) (hrparen : P rparen)
    (e : Tree) : ∀ t ∈ e.tokens, P t := by
  have hparenthesize : ∀ (parens : Bool) (ts : List Token), (∀ t ∈ ts, P t) →
      ∀ t ∈ parenthesize parens ts, P t := by
    intro parens ts hts t ht
    rcases mem_parenthesize ht with ht | rfl | rfl
    · exact hts t ht
    · exact hlparen
    · exact hrparen
  induction e with
  | id name => simpa [tokens] using hid name
  | int value => simpa [tokens] using hint value
  | unary op a iha =>
      intro t ht
      rcases List.mem_cons.mp ht with rfl | ht
      · exact hsign op
      · exact hparenthesize _ _ iha t ht
  | binary op a b iha ihb =>
      intro t ht
      rcases List.mem_append.mp ht with ht | ht
      · exact hparenthesize _ _ iha t ht
      · rcases List.mem_cons.mp ht with rfl | ht
        · exact hbinary op
        · exact hparenthesize _ _ ihb t ht

theorem spelled_tokens (e : Tree) : ∀ t ∈ e.tokens, Spelled t :=
  forall_tokens (fun name ↦ name.lexes) (fun value ↦ value.lexes)
    (fun op ↦ spelled_op op.text_opTexts) (fun op ↦ spelled_op op.text_opTexts)
    (spelled_op (by decide +kernel)) (spelled_op (by decide +kernel)) e

/-! ## The lexemes of spaced tokens -/

theorem spaced_allEnd {ts : List Token} (h : ∀ t ∈ ts, Spelled t) :
    lexer.AllEnd (spaced ts) := by
  induction ts with
  | nil => trivial
  | cons t ts ih =>
      have ht := h t List.mem_cons_self
      have hts := ih fun t ht ↦ h t (List.mem_cons_of_mem _ ht)
      cases ts with
      | nil =>
          refine ⟨?_, trivial⟩
          change lexeme (t.text ++ []) = _
          rwa [List.append_nil]
      | cons t' ts =>
          have hblank : isSpace ' ' = true := by decide
          exact ⟨(ht.follows _).mpr (follows_space hblank t _),
            lexeme_space hblank (lexer.render (spaced (t' :: ts))), hts⟩

theorem tokensAt_spaced (l : Loc) (ts : List Token) :
    (tokensAt l (spaced ts)).map Prod.fst = ts ++ [⟨.eof, []⟩] := by
  induction ts generalizing l with
  | nil => rfl
  | cons t ts ih =>
      cases ts with
      | nil => rfl
      | cons t' ts =>
          change t :: (tokensAt _ (spaced (t' :: ts))).map Prod.fst = _
          rw [ih]
          rfl

/-! ## The characters of spaced tokens -/

/-- The characters of the printed form. -/
def isPrinted (c : Char) : Bool := isIdChar c || singleOps.contains c || c == ' '

theorem opTexts_printed {text : List Char} (h : text ∈ opTexts) :
    ∀ c ∈ text, isPrinted c = true := by
  have hall : opTexts.all (fun text ↦ text.all isPrinted) = true := by decide
  exact List.all_eq_true.mp (List.all_eq_true.mp hall text h)

theorem Ident_printed (name : Ident) : ∀ c ∈ name.text, isPrinted c = true := by
  intro c hc
  have hread := reads_of_lexeme name.lexes
  cases htext : name.text with
  | nil => rw [htext] at hc; cases hc
  | cons d r =>
      rw [htext] at hread hc
      cases hread with
      | id _ _ hall => simp [isPrinted, hall c hc]
      | number _ _ hkind _ => rcases hkind with hkind | hkind <;> cases hkind
      | literal _ hkind _ _ => rcases hkind with hkind | hkind <;> cases hkind

theorem IntLiteral_reads (value : IntLiteral) : number (value.text ++ []) = some ⟨.int, value.text⟩ ∧
    ∃ c r, value.text = c :: r ∧ c.isDigit = true := by
  have hread := reads_of_lexeme value.lexes
  rw [List.append_nil]
  generalize htoken : (⟨.int, value.text⟩ : Token) = t at hread
  cases hread with
  | id _ _ _ => cases htoken
  | number hc ht _ h =>
      subst htoken
      exact ⟨h, _, _, ht, hc⟩
  | literal _ hkind _ _ =>
      subst htoken
      rcases hkind with hkind | hkind <;> cases hkind
  | op _ => cases htoken

theorem IntLiteral_printed (value : IntLiteral) : ∀ c ∈ value.text, isPrinted c = true := by
  have hid : ∀ c ∈ value.text, isIdChar c = true := by
    obtain ⟨hnumber, c, r, htext, hc⟩ := IntLiteral_reads value
    obtain ⟨hread, -⟩ := (number_eq_some_iff (t := ⟨.int, value.text⟩)).mp hnumber
    split at hread
    · rename_i hhex
      obtain ⟨x, ds, -, heq, hall, -⟩ :=
        (hexadecimal_eq_some_iff (t := ⟨.int, value.text⟩) hhex).mp hread
      injection heq with _ heq
      rw [heq] at hhex ⊢
      have hx : (x == 'x' || x == 'X') = true := hhex
      simp only [Bool.or_eq_true, beq_iff_eq] at hx
      intro d hd
      rcases List.mem_cons.mp hd with rfl | hd
      · rfl
      · rcases List.mem_cons.mp hd with rfl | hd
        · rcases hx with rfl | rfl <;> decide
        · exact hexDigit_isIdChar (hall d hd)
    · obtain ⟨whole, point, power, heq, hparts⟩ :=
        (decimal_eq_some_iff (t := ⟨.int, value.text⟩)).mp hread
      injection heq with hkind heq
      by_cases hint : point = [] ∧ power = []
      · obtain ⟨rfl, rfl⟩ := hint
        rw [heq, List.append_nil, List.append_nil]
        exact fun d hd ↦ digit_isIdChar (hparts.digits d hd)
      · rw [if_neg hint] at hkind
        cases hkind
  intro c hc
  simp [isPrinted, hid c hc]

theorem print_printed (e : Tree) : ∀ c ∈ e.print, isPrinted c = true := by
  have htokens : ∀ t ∈ e.tokens, ∀ c ∈ t.text, isPrinted c = true :=
    forall_tokens Ident_printed IntLiteral_printed (fun op ↦ opTexts_printed op.text_opTexts)
      (fun op ↦ opTexts_printed op.text_opTexts) (opTexts_printed (by decide +kernel))
      (opTexts_printed (by decide +kernel)) e
  have hspaced : ∀ ts : List Token, (∀ t ∈ ts, ∀ c ∈ t.text, isPrinted c = true) →
      ∀ c ∈ lexer.render (spaced ts), isPrinted c = true := by
    intro ts hts
    induction ts with
    | nil => intro c hc; cases hc
    | cons t ts ih =>
        have ht := hts t List.mem_cons_self
        have ih := ih fun t ht ↦ hts t (List.mem_cons_of_mem _ ht)
        intro c hc
        cases ts with
        | nil =>
            have hc' : c ∈ t.text ++ [] := hc
            exact ht c (by simpa using hc')
        | cons t' ts =>
            have hc' : c ∈ t.text ++ ([' '] ++ lexer.render (spaced (t' :: ts))) := hc
            rcases List.mem_append.mp hc' with hc' | hc'
            · exact ht c hc'
            · rcases List.mem_append.mp hc' with hc' | hc'
              · rw [List.mem_singleton.mp hc']
                rfl
              · exact ih c hc'
  exact hspaced e.tokens htokens

/-- The lexer starts on a printed text as it stands. -/
theorem source_printed {s : List Char} (h : ∀ c ∈ s, isPrinted c = true) :
    skipByteOrderMark (cString s) = s := by
  have hnul : cString s = s := by
    rw [cString, List.takeWhile_eq_self_iff]
    intro c hc
    rw [bne_iff_ne]
    rintro rfl
    exact absurd (h _ hc) (by decide)
  rw [hnul, skipByteOrderMark, if_neg]
  intro hmark
  obtain ⟨r, hr⟩ := List.isPrefixOf_iff_prefix.mp hmark
  have hmem : Char.ofNat 0xef ∈ s := by
    rw [← hr]
    simp [byteOrderMark]
  exact absurd (h _ hmem) (by decide)

/-- Lexing a printed tree gives its tokens, up to the limit on their number. -/
theorem lex_print (e : Tree) : (lex e.print).map (·.map Prod.fst) =
    if e.tokens.length + 1 ≤ tokenLimit then some (e.tokens ++ [⟨.eof, []⟩]) else none := by
  have hscan : lexer.scan e.print = some (spaced e.tokens) :=
    (spaced_allEnd e.spelled_tokens).scan
  have htokens := tokensAt_spaced ⟨1, 1⟩ e.tokens
  have hlength : (tokensAt ⟨1, 1⟩ (spaced e.tokens)).length = e.tokens.length + 1 := by
    have h := congrArg List.length htokens
    simpa using h
  rw [lex, source_printed e.print_printed, hscan]
  simp only [hlength]
  split
  · rw [Option.map_some, htokens]
  · rfl

end Tree

end TinyCPlus.Compiler
