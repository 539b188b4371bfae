import TinyCPlus.Compiler.FormatterSource

/-!
# Formatting and reading back

The text that the formatter writes is read back as the tokens and comments of
its source exactly when no token is written side by side with a text that it
swallows.
-/

namespace TinyCPlus.Compiler

open TinyCPlus.Library

/-- The lexemes of a file. -/
def lexemes (file : List Char) : Option (List Lexeme) :=
  lexer.scan (skipByteOrderMark (cString file))

/-- The output has the tokens of the file, and the comments of the file, up to
blanks at their ends, in the same order and between the same tokens. -/
def Preserves (file output : List Char) : Prop :=
  (lex output).map (List.map Prod.fst) = (lex file).map (List.map Prod.fst) ∧
    (lexemes output).map Formatter.content = (lexemes file).map Formatter.content

/-- The layout of the file writes a token side by side with a text that it
swallows. -/
def MergesIn (file : List Char) : Prop :=
  ∃ ls ∈ lexemes file, Formatter.Merges Formatter.start ls

instance (file : List Char) : Decidable (MergesIn file) :=
  inferInstanceAs (Decidable (∃ ls ∈ lexemes file, Formatter.Merges Formatter.start ls))

/-! ## The file that is written -/

theorem lexemes_of_format {file output : List Char} (h : format file = some output) :
    ∃ ls, lexemes file = some ls ∧ (lex file).isSome = true ∧
      output = (Formatter.layout Formatter.start ls).newline.output := by
  rw [format] at h
  split at h
  · cases h
  · rename_i tokens hlex
    rw [hlex]
    rw [lex] at hlex
    split at hlex
    · cases hlex
    · rename_i ls hscan
      dsimp only at hlex h
      split at hlex
      · cases hlex
        split at h
        · cases h
        · rename_i f rest hloop
          cases h
          obtain ⟨hsource, hall⟩ := Tokenizer.allEnd_of_scan hscan
          refine ⟨ls, hscan, rfl, ?_⟩
          rw [hsource] at hloop
          have hnil : Formatter.IsGap [] := fun x hx ↦ by cases hx
          rw [Formatter.formatLoop_eq (l := ⟨1, 1⟩) hnil hall hloop]
          rfl
      · cases hlex

theorem not_mem_cString (file : List Char) : Char.ofNat 0 ∉ cString file := by
  intro hmem
  simpa using mem_takeWhile (p := (· != Char.ofNat 0)) _ hmem

theorem cString_eq {s : List Char} (h : Char.ofNat 0 ∉ s) : cString s = s := by
  rw [cString, List.takeWhile_eq_self_iff]
  intro c hc
  rw [bne_iff_ne]
  rintro rfl
  exact h hc

theorem skipByteOrderMark_subset {s : List Char} {c : Char} (h : c ∈ skipByteOrderMark s) :
    c ∈ s := by
  rw [skipByteOrderMark] at h
  split at h
  · exact List.mem_of_mem_drop h
  · exact h

/-- No lexeme starts with the first byte of a byte order mark. -/
theorem lexeme_byteOrderMark (s : List Char) : lexeme (Char.ofNat 0xef :: s) = none := rfl

theorem skipByteOrderMark_eq {ls : List Lexeme} (h : ∀ l ∈ ls, Formatter.Readable l) :
    skipByteOrderMark (lexer.render ls) = lexer.render ls := by
  rw [skipByteOrderMark, if_neg]
  intro hmark
  cases ls with
  | nil => cases hmark
  | cons l ls =>
      obtain ⟨s, hs⟩ := h l List.mem_cons_self
      obtain ⟨⟨r, rfl⟩, hne⟩ := lexeme_spec hs
      rw [Tokenizer.render_cons] at hmark
      cases htext : l.text with
      | nil => exact hne htext
      | cons c text =>
          have hc : Char.ofNat 0xef = c := by
            obtain ⟨rest, hrest⟩ := List.isPrefixOf_iff_prefix.mp hmark
            rw [show lexer.text l = c :: text from htext] at hrest
            exact (List.cons.inj hrest).1
          rw [htext, ← hc, List.cons_append, lexeme_byteOrderMark] at hs
          cases hs

/-! ## The tokens of a file -/

def tokensOf (ls : List Lexeme) : List Token :=
  ls.filterMap fun
    | .token t => some t
    | _ => none

theorem tokensAt_map_fst (l : Loc) (ls : List Lexeme) :
    (tokensAt l ls).map Prod.fst = tokensOf ls ++ [⟨.eof, []⟩] := by
  induction ls generalizing l with
  | nil => rfl
  | cons x ls ih =>
      cases x with
      | blank c => exact ih _
      | comment text => exact ih _
      | token t => exact congrArg (t :: ·) (ih _)

theorem tokensOf_content (ls : List Lexeme) : tokensOf (Formatter.content ls) = tokensOf ls := by
  induction ls with
  | nil => rfl
  | cons x ls ih =>
      cases x with
      | blank c => exact ih
      | comment text => exact ih
      | token t => exact congrArg (t :: ·) ih

theorem lex_of_lexemes {file : List Char} {ls : List Lexeme} (h : lexemes file = some ls) :
    (lex file).map (List.map Prod.fst) =
      if (tokensOf ls).length + 1 ≤ tokenLimit then some (tokensOf ls ++ [⟨.eof, []⟩])
      else none := by
  have hlength : (tokensAt ⟨1, 1⟩ ls).length = (tokensOf ls).length + 1 := by
    rw [← List.length_map Prod.fst, tokensAt_map_fst, List.length_append]
    rfl
  rw [lexemes] at h
  rw [lex, h]
  dsimp only
  rw [hlength]
  split
  · rw [Option.map_some, tokensAt_map_fst]
  · rfl

/-- Files with the same content have the same tokens. -/
theorem lex_congr {file output : List Char} {ls ps : List Lexeme} (hfile : lexemes file = some ls)
    (houtput : lexemes output = some ps) (h : Formatter.content ps = Formatter.content ls) :
    (lex output).map (List.map Prod.fst) = (lex file).map (List.map Prod.fst) := by
  have htokens : tokensOf ps = tokensOf ls := by
    rw [← tokensOf_content, h, tokensOf_content]
  rw [lex_of_lexemes hfile, lex_of_lexemes houtput, htokens]

/-! ## Reading the output back -/

theorem isToken_of_trimComment {l : Lexeme} {t : Token}
    (h : Formatter.trimComment l = .token t) : l = .token t := by
  cases l with
  | token u => exact h
  | _ => cases h

theorem readable_of_allEnd {ls : List Lexeme} (h : lexer.AllEnd ls) :
    ∀ l ∈ ls, Formatter.Readable l := by
  induction ls with
  | nil => simp
  | cons l ls ih => exact List.forall_mem_cons.mpr ⟨⟨_, h.1⟩, ih h.2⟩

/-- What is laid out for a file holds no zero byte and starts with no byte
order mark. -/
theorem lexemes_laid {file : List Char} {ls out : List Lexeme} (hls : lexemes file = some ls)
    (h : Formatter.Laid Formatter.start ls out) :
    lexemes (lexer.render out) = lexer.scan (lexer.render out) := by
  have hzero : Char.ofNat 0 ∉ lexer.render out := by
    intro hmem
    rcases h.chars _ hmem with hblank | hnewline | hsource
    · exact absurd hblank (by decide)
    · exact absurd hnewline (by decide)
    · rw [← (Tokenizer.allEnd_of_scan hls).1] at hsource
      exact not_mem_cString file (skipByteOrderMark_subset hsource)
  rw [lexemes, cString_eq hzero, skipByteOrderMark_eq h.readable]

/-- No blank is read in the place of a token. -/
theorem Spelled.ne_blank {t : Token} (ht : Spelled t) (s : List Char) (c : Char) :
    lexeme (t.text ++ s) ≠ some (.blank c) := by
  intro hread
  obtain ⟨hpre, -⟩ := lexeme_spec hread
  obtain ⟨d, r, htext⟩ := List.exists_cons_of_ne_nil ht.ne_nil
  have hd : isSpace d = false := ht.head_not_space d (by rw [htext]; rfl)
  have hc : isSpace c = true := Formatter.isSpace_of_lexeme hread
  rw [htext] at hpre
  obtain ⟨rest, hrest⟩ := hpre
  rw [(List.cons.inj hrest).1, hd] at hc
  cases hc

/-- What is laid out is read back if the lexer finds the same content. -/
theorem allEnd_of_content {f : Formatter} {ls out ps : List Lexeme} (h : Formatter.Laid f ls out)
    (hscan : lexer.scan (lexer.render out) = some ps)
    (hcontent : Formatter.content ps = Formatter.content out) : lexer.AllEnd out := by
  refine Tokenizer.allEnd_of_filter _ Formatter.trimComment Formatter.IsToken h.ends ?_ hscan
    hcontent
  intro l hl htoken
  cases l with
  | blank c => exact absurd htoken id
  | comment text => exact absurd htoken id
  | token t =>
      have hspelled := (h.readable _ hl).spelled
      refine ⟨rfl, hspelled.ne_nil, fun s l' hread ↦ ⟨?_, isToken_of_trimComment⟩⟩
      cases l' with
      | token u => rfl
      | comment text => rfl
      | blank c => exact absurd hread (hspelled.ne_blank s c)

/-- Formatting keeps the tokens and the comments of a file exactly when no
token swallows what is written side by side with it. -/
theorem format_preserves_iff {file output : List Char} (h : format file = some output) :
    Preserves file output ↔ ¬ MergesIn file := by
  obtain ⟨ls, hls, -, rfl⟩ := lexemes_of_format h
  have hmerges : MergesIn file ↔ Formatter.Merges Formatter.start ls := by
    rw [MergesIn, hls]
    simp
  obtain ⟨out, hlaid⟩ := Formatter.laid Formatter.between_start
    (readable_of_allEnd (Tokenizer.allEnd_of_scan hls).2)
  have houtput : (Formatter.layout Formatter.start ls).newline.output = lexer.render out :=
    hlaid.output
  rw [hmerges, houtput, ← hlaid.allEnd]
  constructor
  · rintro ⟨-, hcontent⟩
    rw [lexemes_laid hls hlaid, hls, Option.map_some, Option.map_eq_some_iff] at hcontent
    obtain ⟨ps, hscan, hcontent⟩ := hcontent
    exact allEnd_of_content hlaid hscan (hcontent.trans hlaid.content_eq.symm)
  · intro hall
    have hread : lexemes (lexer.render out) = some out := by
      rw [lexemes_laid hls hlaid, hall.scan]
    refine ⟨lex_congr hls hread hlaid.content_eq, ?_⟩
    rw [hread, hls, Option.map_some, Option.map_some, hlaid.content_eq]

theorem format_preserves_iff_negation :
    Preserves "x = 1 - -y; // y\n".toList "x = 1 - -y;\n// y\n".toList := by
  have hformat : format "x = 1 - -y; // y\n".toList = some "x = 1 - -y;\n// y\n".toList := by
    decide +kernel
  exact (format_preserves_iff hformat).mpr (by decide +kernel)

/-- Two signs in front of an operand become a decrement. -/
theorem format_merges_signs :
    ¬ ∀ file output, format file = some output → Preserves file output := by
  intro hall
  have hformat : format "x = - -y;".toList = some "x = --y;\n".toList := by decide +kernel
  have htokens := (hall _ _ hformat).1
  exact absurd htokens (by decide +kernel)

end TinyCPlus.Compiler
