import TinyCPlus.Compiler.FormatterLayout

/-!
# One turn of the formatter

A turn for a token appends blanks, the token, and perhaps a line end.  Whether
the token stands right behind the text before it is decided by `sideBySide`.
-/

namespace TinyCPlus.Compiler

open TinyCPlus.Library

namespace Formatter

/-! ## The parts of a turn -/

@[simp] theorem newline_indent (f : Formatter) : f.newline.indent = f.indent := by
  rw [newline]
  dsimp only
  split <;> rfl

@[simp] theorem newline_glue (f : Formatter) : f.newline.glue = f.glue := by
  rw [newline]
  dsimp only
  split <;> rfl

@[simp] theorem leaveCase_output (f : Formatter) : f.leaveCase.output = f.output := by
  rw [leaveCase]
  split <;> rfl

@[simp] theorem leaveCase_previous (f : Formatter) : f.leaveCase.previous = f.previous := by
  rw [leaveCase]
  split <;> rfl

@[simp] theorem leaveCase_glue (f : Formatter) : f.leaveCase.glue = f.glue := by
  rw [leaveCase]
  split <;> rfl

@[simp] theorem caseLabel_output (f : Formatter) (t : Token) (next : List Char) :
    (f.caseLabel t next).output = f.output := by
  rw [caseLabel]
  split
  · exact f.leaveCase_output
  · rfl

@[simp] theorem caseLabel_previous (f : Formatter) (t : Token) (next : List Char) :
    (f.caseLabel t next).previous = f.previous := by
  rw [caseLabel]
  split
  · exact f.leaveCase_previous
  · rfl

@[simp] theorem caseLabel_glue (f : Formatter) (t : Token) (next : List Char) :
    (f.caseLabel t next).glue = f.glue := by
  rw [caseLabel]
  split
  · exact f.leaveCase_glue
  · rfl

theorem closeBrace_of_not {f : Formatter} {t : Token} (h : closesBrace t = false) :
    f.closeBrace t = f := by
  rw [closeBrace, h, if_neg Bool.false_ne_true]

theorem closeBrace_of {f : Formatter} {t : Token} (h : closesBrace t = true) :
    ∃ g : Formatter, g.output = f.output ∧ f.closeBrace t = g.newline := by
  rw [closeBrace, if_pos h]
  split
  · refine ⟨_, ?_, rfl⟩
    exact f.leaveCase_output
  · exact ⟨f, rfl, rfl⟩

@[simp] theorem indentLine_previous (f : Formatter) : f.indentLine.previous = f.previous := by
  rw [indentLine]
  split <;> rfl

@[simp] theorem indentLine_glue (f : Formatter) : f.indentLine.glue = f.glue := by
  rw [indentLine]
  split <;> rfl

theorem tight_congr {f g : Formatter} (hprev : f.previous = g.previous) (hglue : f.glue = g.glue)
    (text : List Char) : f.tight text = g.tight text := by
  rw [tight, tight, hprev, hglue]

@[simp] theorem countParens_output (f : Formatter) (text : List Char) :
    (f.countParens text).output = f.output := by
  rw [countParens]
  split
  · rfl
  · split <;> rfl

@[simp] theorem countParens_previous (f : Formatter) (text : List Char) :
    (f.countParens text).previous = f.previous := by
  rw [countParens]
  split
  · rfl
  · split <;> rfl

@[simp] theorem countParens_glue (f : Formatter) (text : List Char) :
    (f.countParens text).glue = f.glue := by
  rw [countParens]
  split
  · rfl
  · split <;> rfl

/-- The end of a turn leaves the output as it is or starts a new line. -/
theorem endToken_cases (f : Formatter) (text next : List Char) :
    ∃ g : Formatter, g.output = f.output ∧ g.previous = f.previous ∧ g.glue = f.glue ∧
      (f.endToken text next = g ∨ f.endToken text next = g.newline) := by
  rw [endToken]
  split
  · split
    · refine ⟨_, ?_, ?_, ?_, Or.inl rfl⟩ <;> rfl
    · refine ⟨_, ?_, ?_, ?_, Or.inr rfl⟩ <;> rfl
  · split
    · refine ⟨_, ?_, ?_, ?_, Or.inr rfl⟩ <;> rfl
    · split
      · exact ⟨f, rfl, rfl, rfl, Or.inr rfl⟩
      · split
        · exact ⟨f, rfl, rfl, rfl, Or.inr rfl⟩
        · exact ⟨f, rfl, rfl, rfl, Or.inl rfl⟩

/-! ## The turn -/

/-- The token is written right behind the text before it. -/
def sideBySide (f : Formatter) (t : Token) : Bool :=
  f.previous != [] && !closesBrace t && f.tight t.text

/-- The blanks before a token: a new line for a closing brace, the
indentation at the start of a line, and one blank between other tokens. -/
def lead (f : Formatter) (t : Token) (next : List Char) : List Lexeme :=
  let indent := ((f.closeBrace t).caseLabel t next).indent
  if closesBrace t then f.lineEnd ++ blanks (4 * indent.toNat)
  else if f.lineStart then blanks (4 * indent.toNat)
  else if f.tight t.text then [] else [.blank ' ']

theorem writeToken_output {f : Formatter} (hprev : f.previous = [] ↔ f.lineStart = true)
    (t : Token) :
    (f.writeToken t).output = f.output ++
      lexer.render (if f.lineStart then blanks (4 * f.indent.toNat)
        else if f.tight t.text then [] else [.blank ' ']) ++ t.text := by
  rw [writeToken]
  dsimp only
  rw [indentLine_output, indentation, indentLine_previous,
    tight_congr f.indentLine_previous f.indentLine_glue]
  cases hline : f.lineStart with
  | true =>
      rw [if_pos rfl, if_pos rfl, if_neg fun h : f.previous ≠ [] ∧ _ ↦ h.1 (hprev.mpr hline)]
      simp
  | false =>
      have hne : f.previous ≠ [] := by
        intro hnil
        rw [hprev.mp hnil] at hline
        cases hline
      rw [if_neg Bool.false_ne_true, if_neg Bool.false_ne_true]
      cases htight : f.tight t.text with
      | true =>
          rw [if_pos rfl, if_neg fun h : f.previous ≠ [] ∧ _ ↦ Bool.noConfusion h.2]
          simp
      | false =>
          rw [if_neg Bool.false_ne_true, if_pos ⟨hne, rfl⟩]
          simp [lexer, Lexeme.text]

@[simp] theorem writeToken_previous (f : Formatter) (t : Token) :
    (f.writeToken t).previous = t.text := rfl

theorem writeToken_glue {f : Formatter} {t : Token} (h : t.kind ≠ .op) :
    (f.writeToken t).glue = false := by
  have hkind : (t.kind == .op) = false := by simpa using h
  show f.indentLine.glues t = false
  rw [glues, hkind, Bool.false_and, Bool.false_and]

/-- The state in which a token is written. -/
theorem before_writeToken {f : Formatter} (hf : Between f) (t : Token) (next : List Char) :
    ∃ g : Formatter, g = (f.closeBrace t).caseLabel t next ∧
      (g.previous = [] ↔ g.lineStart = true) ∧
      g.output ++ lexer.render (if g.lineStart then blanks (4 * g.indent.toNat)
        else if g.tight t.text then [] else [.blank ' ']) =
        f.output ++ lexer.render (f.lead t next) := by
  refine ⟨_, rfl, ?_⟩
  have hline : ((f.closeBrace t).caseLabel t next).lineStart = (f.closeBrace t).lineStart := by
    rw [lineStart, lineStart, caseLabel_output]
  have htight : ((f.closeBrace t).caseLabel t next).tight t.text = (f.closeBrace t).tight t.text :=
    tight_congr (caseLabel_previous _ _ _) (caseLabel_glue _ _ _) _
  rw [caseLabel_previous, hline, htight, caseLabel_output, lead]
  cases hclose : closesBrace t with
  | true =>
      obtain ⟨g, hg, heq⟩ := closeBrace_of (f := f) hclose
      have hout : (f.closeBrace t).output = f.output ++ lexer.render f.lineEnd := by
        have hsame : g.lineEnd = f.lineEnd := by
          unfold lineEnd lineStart
          rw [hg]
        rw [heq, newline_output (by rw [hg]; exact hf.trimmed), hg, hsame]
      have hstart : (f.closeBrace t).lineStart = true := by rw [heq, newline_lineStart]
      refine ⟨iff_of_true ?_ hstart, ?_⟩
      · rw [heq, newline_previous]
      · rw [if_pos hstart, if_pos rfl, hout, Tokenizer.render_append, List.append_assoc]
  | false =>
      rw [closeBrace_of_not hclose, if_neg Bool.false_ne_true]
      exact ⟨hf.previous, rfl⟩

theorem step_output {f : Formatter} (hf : Between f) {t : Token} (ht : Spelled t)
    (next : List Char) : ∃ post,
      (f.step t next).output =
          f.output ++ lexer.render (f.lead t next ++ .token t :: post) ∧
        Between (f.step t next) ∧
        (post = [] ∧ (f.step t next).previous = t.text ∧
            (t.kind ≠ .op → (f.step t next).glue = false) ∨
          post = [.blank '\n'] ∧ (f.step t next).previous = []) := by
  obtain ⟨g, hg, hprev, hlead⟩ := before_writeToken hf t next
  obtain ⟨f', hout, hprev', hglue', hend⟩ :=
    endToken_cases ((g.writeToken t).countParens t.text) t.text next
  rw [countParens_output, writeToken_output hprev, hlead] at hout
  rw [countParens_previous, writeToken_previous] at hprev'
  rw [countParens_glue] at hglue'
  have hlast : ∃ c, f'.output.getLast? = some c ∧ isSpace c = false := by
    obtain ⟨c, hc⟩ := Option.isSome_iff_exists.mp (List.getLast?_isSome.mpr ht.ne_nil)
    refine ⟨c, ?_, ht.getLast_not_space c hc⟩
    rw [hout, List.getLast?_append, hc, Option.some_or]
  obtain ⟨c, hc, hspace⟩ := hlast
  have htrim : trimEnd f'.output = f'.output := by
    apply trimEnd_of_getLast?
    rw [hc]
    rintro _ ⟨⟩
    exact isBlank_of_not_space hspace
  have hline : f'.lineStart = false := by
    apply lineStart_eq_false hc
    rintro rfl
    cases hspace
  rw [step, ← hg]
  rcases hend with hend | hend
  · rw [hend]
    refine ⟨[], ?_, ⟨htrim, ?_⟩, Or.inl ⟨rfl, hprev', ?_⟩⟩
    · rw [hout, List.append_assoc, Tokenizer.render_append]
      simp [lexer, Lexeme.text]
    · rw [hprev', hline]
      exact iff_of_false ht.ne_nil Bool.false_ne_true
    · intro hkind
      rw [hglue', writeToken_glue hkind]
  · rw [hend]
    refine ⟨[.blank '\n'], ?_, between_newline f', Or.inr ⟨rfl, newline_previous f'⟩⟩
    rw [newline_output htrim, hout, lineEnd, hline, Tokenizer.render_append, List.append_assoc,
      List.append_assoc]
    simp [lexer, Lexeme.text]

end Formatter

end TinyCPlus.Compiler
