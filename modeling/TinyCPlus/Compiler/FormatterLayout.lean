import TinyCPlus.Compiler.Formatter
import TinyCPlus.Compiler.LexerSpec

/-!
# What the formatter writes

Every turn of the formatter appends lexemes to its output: blanks, comments on
lines of their own, and the token.
-/

namespace TinyCPlus.Compiler

open TinyCPlus.Library

namespace Formatter

/-! ## Line ends and indentation -/

/-- The output between two turns: no blanks at its end, and nothing to
separate a token from exactly at a line start. -/
structure Between (f : Formatter) : Prop where
  trimmed : trimEnd f.output = f.output
  previous : f.previous = [] ↔ f.lineStart = true

theorem between_start : Between start := ⟨rfl, by simp [start, lineStart]⟩

theorem trimEnd_of_getLast? {s : List Char} (h : ∀ c ∈ s.getLast?, isBlank c = false) :
    trimEnd s = s := by
  rw [trimEnd, List.rdropWhile_eq_self_iff]
  intro hne
  rw [h _ (List.getLast?_eq_some_getLast hne)]
  simp

theorem isBlank_of_not_space {c : Char} (h : isSpace c = false) : isBlank c = false := by
  rw [Bool.eq_false_iff]
  intro hblank
  simp only [isBlank, Bool.or_eq_true, beq_iff_eq] at hblank
  rcases hblank with rfl | rfl <;> exact absurd h (by decide)

theorem lineStart_eq_false {f : Formatter} {c : Char} (h : f.output.getLast? = some c)
    (hc : c ≠ '\n') : f.lineStart = false := by
  have hne : f.output ≠ [] := by
    intro hnil
    rw [hnil] at h
    cases h
  simp [lineStart, hne, h, hc]

/-- The line end a new line needs. -/
def lineEnd (f : Formatter) : List Lexeme := if f.lineStart then [] else [.blank '\n']

theorem newline_output {f : Formatter} (h : trimEnd f.output = f.output) :
    f.newline.output = f.output ++ lexer.render f.lineEnd := by
  have hsame : ({ f with output := trimEnd f.output, previous := [] } : Formatter).lineStart =
      f.lineStart := by
    rw [h]
    rfl
  rw [newline, lineEnd]
  dsimp only
  rw [hsame]
  split
  · simp [h]
  · rw [h]
    rfl

theorem newline_lineStart (f : Formatter) : f.newline.lineStart = true := by
  rw [newline]
  dsimp only
  split
  · assumption
  · simp [lineStart]

theorem newline_previous (f : Formatter) : f.newline.previous = [] := by
  rw [newline]
  dsimp only
  split <;> rfl

theorem trimEnd_of_lineStart {f : Formatter} (h : f.lineStart = true) :
    trimEnd f.output = f.output := by
  apply trimEnd_of_getLast?
  intro c hc
  simp only [lineStart, Bool.or_eq_true, beq_iff_eq] at h
  rcases h with h | h
  · rw [h] at hc
    cases hc
  · rw [h, Option.mem_some_iff] at hc
    rw [← hc]
    rfl

theorem between_newline (f : Formatter) : Between f.newline :=
  ⟨trimEnd_of_lineStart (newline_lineStart f),
    iff_of_true (newline_previous f) (newline_lineStart f)⟩

def blanks (n : ℕ) : List Lexeme := List.replicate n (.blank ' ')

theorem render_blanks (n : ℕ) : lexer.render (blanks n) = List.replicate n ' ' := by
  induction n with
  | zero => rfl
  | succ n ih =>
      rw [blanks, List.replicate_succ, Tokenizer.render_cons, ← blanks, ih]
      rfl

def indentation (f : Formatter) : List Lexeme :=
  if f.lineStart then blanks (4 * f.indent.toNat) else []

theorem indentLine_output (f : Formatter) :
    f.indentLine.output = f.output ++ lexer.render f.indentation := by
  rw [indentLine, indentation]
  split
  · rw [render_blanks]
  · simp

/-! ## Comments -/

def trimComment : Lexeme → Lexeme
  | .comment text => .comment (trimEnd text)
  | l => l

theorem blockComment_getLast? {level : ℕ} {s t : List Char}
    (h : blockComment (level + 1) s = some t) : t.getLast? = some '/' := by
  generalize hlevel : level + 1 = depth at h
  fun_induction blockComment depth s generalizing t level with
  | case1 => omega
  | case2 => cases h
  | case3 level' s ih =>
      obtain ⟨t, ht, rfl⟩ := Option.map_eq_some_iff.mp h
      simp [List.getLast?_cons, ih rfl ht]
  | case4 level' s ih =>
      obtain ⟨t, ht, rfl⟩ := Option.map_eq_some_iff.mp h
      cases level' with
      | zero =>
          rw [blockComment] at ht
          cases ht
          rfl
      | succ level'' => simp [List.getLast?_cons, ih rfl ht]
  | case5 level' c s _ _ ih =>
      obtain ⟨t, ht, rfl⟩ := Option.map_eq_some_iff.mp h
      simp [List.getLast?_cons, ih rfl ht]

/-- A comment is a line comment or a block comment. -/
theorem comment_cases {s text : List Char} (h : lexeme s = some (.comment text)) :
    (∃ r, text = '/' :: '/' :: r ∧ '\n' ∉ text ∧ text = s.takeWhile (· != '\n')) ∨
      ∃ r t, text = '/' :: '*' :: t ∧ s = '/' :: '*' :: r ∧ blockComment 1 r = some t := by
  revert h
  fun_cases lexeme s with
  | case1 => rintro ⟨⟩
  | case2 => rintro ⟨⟩
  | case3 c s _ hline =>
      rintro ⟨⟩
      obtain ⟨rfl, hs⟩ := hline
      cases s with
      | nil => cases hs
      | cons d s =>
          injection hs with hd
          subst hd
          refine Or.inl ⟨s.takeWhile (· != '\n'), rfl, ?_, rfl⟩
          intro hmem
          simpa using mem_takeWhile (p := (· != '\n')) _ hmem
  | case4 c s _ _ hblock =>
      intro h
      obtain ⟨t, ht, heq⟩ := Option.map_eq_some_iff.mp h
      obtain ⟨rfl, hs⟩ := hblock
      cases s with
      | nil => cases hs
      | cons d s =>
          injection hs with hd
          subst hd
          cases heq
          exact Or.inr ⟨s, t, rfl, rfl, ht⟩
  | case5 => rintro ⟨⟩
  | case6 =>
      intro h
      obtain ⟨_, -, h⟩ := Option.map_eq_some_iff.mp h
      cases h
  | case7 =>
      intro h
      obtain ⟨_, -, h⟩ := Option.map_eq_some_iff.mp h
      cases h
  | case8 =>
      intro h
      obtain ⟨_, -, h⟩ := Option.map_eq_some_iff.mp h
      cases h

theorem blockComment_cons {level : ℕ} {c : Char} {s : List Char}
    (hopen : c = '/' → s.head? ≠ some '*') (hclose : c = '*' → s.head? ≠ some '/') :
    blockComment (level + 1) (c :: s) = (blockComment (level + 1) s).map (c :: ·) := by
  rw [blockComment]
  · rintro r rfl rfl
    exact hopen rfl rfl
  · rintro r rfl rfl
    exact hclose rfl rfl

/-- A block comment ends at its last mark whatever stands behind it. -/
theorem blockComment_append {level : ℕ} {s t : List Char} (h : blockComment level s = some t)
    (s' : List Char) : blockComment level (t ++ s') = some t := by
  fun_induction blockComment level s generalizing t with
  | case1 =>
      cases h
      rw [blockComment]
  | case2 => cases h
  | case3 level s ih =>
      obtain ⟨t, ht, rfl⟩ := Option.map_eq_some_iff.mp h
      simp [blockComment, ih ht]
  | case4 level s ih =>
      obtain ⟨t, ht, rfl⟩ := Option.map_eq_some_iff.mp h
      simp [blockComment, ih ht]
  | case5 level c s hopen hclose ih =>
      obtain ⟨t, ht, rfl⟩ := Option.map_eq_some_iff.mp h
      have hhead : (t ++ s').head? = s.head? := by
        obtain ⟨r, rfl⟩ := blockComment_isPrefix ht
        cases t with
        | nil => cases blockComment_getLast? ht
        | cons d t => rfl
      rw [List.cons_append, blockComment_cons, ih ht]
      · rfl
      · rintro rfl hstar
        rw [hhead, List.head?_eq_some_iff] at hstar
        obtain ⟨r, hr⟩ := hstar
        exact hopen r rfl hr
      · rintro rfl hslash
        rw [hhead, List.head?_eq_some_iff] at hslash
        obtain ⟨r, hr⟩ := hslash
        exact hclose r rfl hr

theorem trimEnd_append_cons {s : List Char} {c : Char} (hc : isBlank c = false) (r : List Char) :
    trimEnd (s ++ c :: r) = s ++ c :: trimEnd r := by
  rw [trimEnd, trimEnd, List.rdropWhile, List.rdropWhile, List.reverse_append,
    List.reverse_cons, List.append_assoc, List.singleton_append, List.dropWhile_append]
  split
  · rename_i hnil
    simp [List.isEmpty_iff.mp hnil, hc]
  · simp

theorem trimEnd_isPrefix (s : List Char) : trimEnd s <+: s := List.rdropWhile_prefix _ s

theorem lexeme_slash {d : Char} {s : List Char} :
    (d = '/' → lexeme ('/' :: d :: s) = some (.comment (('/' :: d :: s).takeWhile (· != '\n')))) ∧
      (d = '*' → lexeme ('/' :: d :: s) =
        (blockComment 1 s).map fun t ↦ .comment ('/' :: '*' :: t)) := by
  constructor <;> rintro rfl <;> simp [lexeme, isSpace]

/-- A comment without its blanks at the end is read back at the end of a
line. -/
theorem ends_trimmed {s text : List Char} (h : lexeme s = some (.comment text)) (r : List Char) :
    lexer.Ends (.comment (trimEnd text)) ('\n' :: r) := by
  rcases comment_cases h with ⟨body, rfl, hline, -⟩ | ⟨r', t, rfl, -, ht⟩
  · have hsplit : trimEnd ('/' :: '/' :: body) = '/' :: '/' :: trimEnd body :=
      trimEnd_append_cons (s := ['/']) (c := '/') rfl body
    have hmem : ∀ c ∈ trimEnd body, (c != '\n') = true := by
      intro c hc
      have hc' : c ∈ body := (trimEnd_isPrefix body).subset hc
      rw [bne_iff_ne]
      rintro rfl
      exact hline (List.mem_cons_of_mem _ (List.mem_cons_of_mem _ hc'))
    rw [hsplit]
    refine ((lexeme_slash (s := trimEnd body ++ '\n' :: r)).1 rfl).trans ?_
    rw [show '/' :: '/' :: (trimEnd body ++ '\n' :: r) =
      ('/' :: '/' :: trimEnd body) ++ '\n' :: r from rfl, takeWhile_append_eq_iff.mpr]
    refine ⟨?_, stops_cons.mpr rfl⟩
    simpa using hmem
  · have hlast : ('/' :: '*' :: t).getLast? = some '/' := by
      rw [List.getLast?_cons, List.getLast?_cons, blockComment_getLast? ht]
      rfl
    rw [trimEnd_of_getLast? (by rw [hlast]; rintro c ⟨⟩; rfl)]
    refine ((lexeme_slash (s := t ++ '\n' :: r)).2 rfl).trans ?_
    rw [blockComment_append ht]
    rfl

/-- What the formatter appends for a comment. -/
def commentLayout (f : Formatter) (text : List Char) : List Lexeme :=
  f.lineEnd ++ blanks (4 * f.indent.toNat) ++ [.comment (trimEnd text), .blank '\n']

/-- The text of a comment without its blanks at the end still starts with a
mark, and does not end a line. -/
theorem trimEnd_comment {s text : List Char} (h : lexeme s = some (.comment text)) :
    ∃ c r, text = c :: r ∧ isBlank c = false ∧ trimEnd text = c :: trimEnd r ∧
      (trimEnd text).getLast? ≠ some '\n' := by
  rcases comment_cases h with ⟨body, rfl, hline, -⟩ | ⟨r', t, rfl, -, ht⟩
  · refine ⟨'/', '/' :: body, rfl, rfl, trimEnd_append_cons (s := []) rfl _, ?_⟩
    intro hlast
    exact hline ((trimEnd_isPrefix _).subset (List.mem_of_getLast? hlast))
  · refine ⟨'/', '*' :: t, rfl, rfl, trimEnd_append_cons (s := []) rfl _, ?_⟩
    have hlast : ('/' :: '*' :: t).getLast? = some '/' := by
      rw [List.getLast?_cons, List.getLast?_cons, blockComment_getLast? ht]
      rfl
    rw [trimEnd_of_getLast?, hlast]
    · decide
    · rw [hlast]
      rintro c ⟨⟩
      rfl

theorem comment_output {f : Formatter} (hf : trimEnd f.output = f.output) {s text : List Char}
    (h : lexeme s = some (.comment text)) :
    (f.comment text).output = f.output ++ lexer.render (f.commentLayout text) := by
  obtain ⟨c, r, htext, hc, htrim, hlast⟩ := trimEnd_comment h
  have hindent : f.newline.indent = f.indent := by
    rw [newline]
    dsimp only
    split <;> rfl
  have hwritten : (f.newline.indentLine.write text).output =
      f.output ++ lexer.render (f.lineEnd ++ blanks (4 * f.indent.toNat)) ++ text := by
    rw [write]
    dsimp only
    rw [indentLine_output, indentation, if_pos (newline_lineStart f), hindent, newline_output hf,
      Tokenizer.render_append, List.append_assoc f.output]
  have htrimmed : trimEnd (f.newline.indentLine.write text).output =
      f.output ++ lexer.render (f.lineEnd ++ blanks (4 * f.indent.toNat)) ++ trimEnd text := by
    rw [hwritten, htext, trimEnd_append_cons hc, ← htrim, htext]
  have hnot : ({ f.newline.indentLine.write text with
      output := trimEnd (f.newline.indentLine.write text).output, previous := [] } :
        Formatter).lineStart = false := by
    rw [lineStart]
    dsimp only
    rw [htrimmed, htrim, Bool.or_eq_false_iff]
    refine ⟨by simp, ?_⟩
    rw [← htrim, List.getLast?_append, beq_eq_false_iff_ne]
    cases hopt : (trimEnd text).getLast? with
    | none =>
        rw [List.getLast?_eq_none_iff, htrim] at hopt
        cases hopt
    | some d =>
        rw [Option.some_or, ← hopt]
        exact hlast
  rw [comment, newline]
  dsimp only
  rw [hnot, if_neg Bool.false_ne_true, htrimmed, commentLayout, Tokenizer.render_append lexer
    (f.lineEnd ++ _), ← List.append_assoc f.output, List.append_assoc _ (trimEnd text)]
  rfl

end Formatter

end TinyCPlus.Compiler
