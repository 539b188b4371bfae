import TinyCPlus.Compiler.FormatterRoundTrip

/-!
# Formatting twice

The layout of a file depends on its tokens and comments only, and these are read back from the
output as soon as its tokens are.
-/

namespace TinyCPlus.Compiler

open TinyCPlus.Library

namespace Formatter

/-! ## The layout forgets blanks -/

theorem trimEnd_append_trimEnd (a s : List Char) : trimEnd (a ++ trimEnd s) = trimEnd (a ++ s) := by
  rw [trimEnd, trimEnd, trimEnd, List.rdropWhile, List.rdropWhile, List.rdropWhile,
    List.reverse_append, List.reverse_append, List.reverse_reverse, List.dropWhile_append,
    List.dropWhile_append, List.dropWhile_idempotent]

/-- Blanks at the end of a comment are trimmed with the line. -/
theorem comment_trimEnd (f : Formatter) (text : List Char) :
    f.comment (trimEnd text) = f.comment text := by
  have hnewline : ∀ g : Formatter, (g.write (trimEnd text)).newline = (g.write text).newline := by
    intro g
    unfold newline
    dsimp only [write]
    rw [trimEnd_append_trimEnd]
  exact hnewline _

theorem nextText_content (ls : List Lexeme) : nextText (content ls) = nextText ls := by
  induction ls with
  | nil => rfl
  | cons l ls ih =>
      cases l with
      | blank c => exact ih
      | comment text => exact ih
      | token t => rfl

/-- The layout depends on the tokens, and on the comments without blanks at their ends. -/
theorem layout_content (f : Formatter) (ls : List Lexeme) :
    layout f (content ls) = layout f ls := by
  induction ls generalizing f with
  | nil => rfl
  | cons l ls ih =>
      cases l with
      | blank c => exact ih f
      | comment text =>
          show layout (f.comment (trimEnd text)) (content ls) = layout (f.comment text) ls
          rw [comment_trimEnd]
          exact ih _
      | token t =>
          show layout (f.step t (nextText (content ls))) (content ls) =
            layout (f.step t (nextText ls)) ls
          rw [nextText_content]
          exact ih _

/-! ## The limit on braces -/

/-- The layout reaches the limit on braces. -/
def TooDeepIn : Formatter → List Lexeme → Prop
  | _, [] => False
  | f, .blank _ :: ls => TooDeepIn f ls
  | f, .comment text :: ls => TooDeepIn (f.comment text) ls
  | f, .token t :: ls => f.tooDeep t = true ∨ TooDeepIn (f.step t (nextText ls)) ls

theorem tooDeepIn_content (f : Formatter) (ls : List Lexeme) :
    TooDeepIn f (content ls) ↔ TooDeepIn f ls := by
  induction ls generalizing f with
  | nil => rfl
  | cons l ls ih =>
      cases l with
      | blank c => exact ih f
      | comment text =>
          show TooDeepIn (f.comment (trimEnd text)) (content ls) ↔ TooDeepIn (f.comment text) ls
          rw [comment_trimEnd]
          exact ih _
      | token t =>
          show f.tooDeep t = true ∨ TooDeepIn (f.step t (nextText (content ls))) (content ls) ↔
            f.tooDeep t = true ∨ TooDeepIn (f.step t (nextText ls)) ls
          rw [nextText_content, ih]

theorem tooDeepIn_append_gap {f : Formatter} {gap : List Lexeme} (hgap : IsGap gap)
    (ls : List Lexeme) : TooDeepIn f (gap ++ ls) ↔ TooDeepIn (layout f gap) ls := by
  induction gap generalizing f with
  | nil => rfl
  | cons l gap ih =>
      have hgap' : IsGap gap := fun x hx ↦ hgap x (List.mem_cons_of_mem _ hx)
      cases l with
      | blank c => exact ih hgap'
      | comment text => exact ih hgap'
      | token t => exact absurd trivial (hgap _ List.mem_cons_self)

/-- The loop over the tokens fails at the limit only, by induction on the lexemes behind a gap. -/
theorem formatLoop_isSome_iff {f : Formatter} {gap ls : List Lexeme} {l : Loc}
    (hgap : IsGap gap) (hall : lexer.AllEnd (gap ++ ls)) :
    (formatLoop f (lexer.render (gap ++ ls)) l
      (tokensAt (l.advance (lexer.render gap)) ls)).isSome = true ↔
      ¬TooDeepIn f (gap ++ ls) := by
  induction ls generalizing f gap l with
  | nil =>
      rw [tooDeepIn_append_gap hgap, tokensAt, formatLoop]
      · exact iff_of_true rfl id
      · simp
  | cons x ls ih =>
      have hsnoc : gap ++ x :: ls = gap ++ [x] ++ ls := by simp
      cases x with
      | blank c =>
          rw [hsnoc] at hall ⊢
          rw [← ih (f := f) (l := l) (isGap_append hgap id) hall,
            Tokenizer.render_append lexer gap, Loc.advance_append]
          rfl
      | comment text =>
          rw [hsnoc] at hall ⊢
          rw [← ih (f := f) (l := l) (isGap_append hgap id) hall,
            Tokenizer.render_append lexer gap, Loc.advance_append, Tokenizer.render_cons,
            Tokenizer.render_nil, List.append_nil]
          rfl
      | token t =>
          have hrest := allEnd_of_append hall
          have hspelled : Spelled t := spelled_of_lexeme hrest.1
          obtain ⟨t', target', rest', htokens, hnext⟩ :=
            tokensAt_head ((l.advance (lexer.render gap)).advance t.text) ls
          have hsource : lexer.render (gap ++ .token t :: ls) =
              lexer.render gap ++ (t.text ++ lexer.render ls) := by
            rw [Tokenizer.render_append]
            rfl
          have hnil : IsGap [] := fun x hx ↦ by cases hx
          rw [tooDeepIn_append_gap hgap, tokensAt, htokens, formatLoop, hsource, gapLength_eq,
            List.take_left, ← hsource, comments, commentsFuel_eq hgap hall le_rfl, hsource,
            ← List.append_assoc, ← List.length_append, List.drop_left,
            ← Loc.advance_of_not_mem hspelled.no_newline, ← htokens, hnext]
          cases hdeep : (layout f gap).tooDeep t with
          | true => simp [TooDeepIn, hdeep]
          | false =>
              have hstep : (formatLoop ((layout f gap).step t (nextText ls)) (lexer.render ls)
                  ((l.advance (lexer.render gap)).advance t.text)
                  (tokensAt ((l.advance (lexer.render gap)).advance t.text) ls)).isSome = true ↔
                  ¬TooDeepIn ((layout f gap).step t (nextText ls)) ls := ih hnil hrest.2
              rw [TooDeepIn, hdeep, if_neg Bool.false_ne_true]
              simpa using hstep

/-! ## Comments are not made of tokens -/

/-- Only a slash opens a comment with the text behind it. -/
theorem slash_of_comment {t : Token} (ht : Spelled t) {s text : List Char}
    (h : lexeme (t.text ++ s) = some (.comment text)) :
    t.text = ['/'] ∧ ∃ d r, s = d :: r ∧ (d = '/' ∨ d = '*') := by
  have hopens : ∃ d r, t.text ++ s = '/' :: d :: r ∧ (d = '/' ∨ d = '*') := by
    obtain ⟨hpre, -⟩ := lexeme_spec h
    rcases comment_cases h with ⟨r, rfl, -, -⟩ | ⟨r, t', -, hs, -⟩
    · obtain ⟨rest, hrest⟩ := hpre
      exact ⟨'/', r ++ rest, hrest.symm, .inl rfl⟩
    · exact ⟨'*', r, hs, .inr rfl⟩
  obtain ⟨d, r, hs, hd⟩ := hopens
  cases htext : t.text with
  | nil => exact absurd htext ht.ne_nil
  | cons c rest =>
      rw [htext, List.cons_append] at hs
      obtain ⟨hc, htail⟩ := List.cons.inj hs
      subst hc
      cases rest with
      | nil => exact ⟨rfl, d, r, htail, hd⟩
      | cons d' rest =>
          -- a text of two characters or more would itself be a comment
          exfalso
          have hd' : d' = d := (List.cons.inj htail).1
          subst hd'
          rw [Spelled, htext] at ht
          rcases hd with rfl | rfl
          · rw [(lexeme_slash (s := rest)).1 rfl] at ht
            cases ht
          · rw [(lexeme_slash (s := rest)).2 rfl] at ht
            obtain ⟨_, -, ht⟩ := Option.map_eq_some_iff.mp ht
            cases ht

theorem step_glue (f : Formatter) (t : Token) (next : List Char) (ht : t.text = ['/']) :
    (f.step t next).glue = false := by
  obtain ⟨g, -, -, hglue, hend⟩ := endToken_cases
    ((((f.closeBrace t).caseLabel t next).writeToken t).countParens t.text) t.text next
  have hsign : signs.contains t.text = false := by
    rw [ht]
    decide
  have hwritten : (((f.closeBrace t).caseLabel t next).writeToken t).glue = false := by
    show Formatter.glues _ t = false
    rw [glues, hsign, Bool.and_false, Bool.false_and]
  rw [countParens_glue, hwritten] at hglue
  rw [step]
  rcases hend with hend | hend
  · rw [hend, hglue]
  · rw [hend, newline_glue, hglue]

theorem tightTexts_noSlash : ∀ text ∈ "(".toList :: tightTexts,
    ∃ c r, text = c :: r ∧ c ≠ '/' ∧ c ≠ '*' := by
  intro text htext
  have hhead : ∀ text ∈ "(".toList :: tightTexts, text.headD '/' ≠ '/' ∧ text.headD '/' ≠ '*' := by
    decide
  cases text with
  | nil => exact absurd rfl (hhead [] htext).1
  | cons c r => exact ⟨c, r, rfl, hhead (c :: r) htext⟩

/-- What is side by side with a slash opens no comment. -/
theorem behind_slash {f : Formatter} (hprev : f.previous = ['/']) (hglue : f.glue = false)
    (ls : List Lexeme) {d : Char} {r : List Char} (h : behind f ls = d :: r) :
    d ≠ '/' ∧ d ≠ '*' := by
  have hnot : tightPrevious.contains f.previous = false := by
    rw [hprev]
    decide
  induction ls with
  | nil => cases h
  | cons l ls ih =>
      cases l with
      | blank c => exact ih h
      | comment text => cases h
      | token u =>
          rw [behind] at h
          split at h
          · rename_i hside
            rw [sideBySide, Bool.and_eq_true] at hside
            obtain ⟨-, htight⟩ := hside
            simp only [tight, hnot, hglue, Bool.or_false, Bool.or_eq_true, Bool.and_eq_true,
              beq_iff_eq, List.contains_iff_mem] at htight
            have hmem : u.text ∈ "(".toList :: tightTexts := by
              rcases htight with htight | ⟨htight, -⟩
              · exact List.mem_cons_of_mem _ htight
              · rw [htight]
                exact List.mem_cons_self
            obtain ⟨c, rest, htext, hc⟩ := tightTexts_noSlash _ hmem
            rw [htext, List.cons_append] at h
            exact (List.cons.inj h).1 ▸ hc
          · cases h

/-- A lexeme ends where it should, or is a token in whose place no comment is read. -/
def Placed (l : Lexeme) (s : List Char) : Prop :=
  lexer.Ends l s ∨
    ∃ t, l = .token t ∧ Spelled t ∧ ∀ text, lexeme (t.text ++ s) ≠ some (.comment text)

/-- The token of a turn and what is laid out behind it. -/
theorem placed_token {f : Formatter} {t : Token} (ht : Spelled t) {ls out post : List Lexeme}
    (hpost : post = [] ∧ (f.step t (nextText ls)).previous = t.text ∨
      post = [.blank '\n'])
    (h : Laid (f.step t (nextText ls)) ls out) :
    Placed (.token t) (lexer.render (post ++ out)) := by
  refine .inr ⟨t, rfl, ht, ?_⟩
  intro text hcomment
  obtain ⟨hslash, d, r, hs, hd⟩ := slash_of_comment ht hcomment
  rcases hpost with ⟨rfl, hprev⟩ | rfl
  · obtain ⟨rest, hblank, hrender⟩ := h.behind (by rw [hprev]; exact ht.ne_nil)
    rw [List.nil_append, hrender] at hs
    cases hbehind : behind (f.step t (nextText ls)) ls with
    | nil =>
        rw [hbehind, List.nil_append] at hs
        rcases hblank with rfl | ⟨c, _, hc, rfl⟩
        · cases hs
        · obtain ⟨rfl, -⟩ := List.cons.inj hs
          rcases hd with rfl | rfl <;> cases hc
    | cons c rest' =>
        rw [hbehind, List.cons_append] at hs
        obtain ⟨rfl, -⟩ := List.cons.inj hs
        obtain ⟨hne, hne'⟩ := behind_slash (hprev.trans hslash) (step_glue f t _ hslash) ls hbehind
        rcases hd with h | h
        · exact hne h
        · exact hne' h
  · obtain ⟨rfl, -⟩ := List.cons.inj hs
    rcases hd with h | h <;> cases h

theorem placed_blank {ls : List Lexeme} (h : ∀ l ∈ ls, IsBlank l) :
    ∀ l ∈ ls, ∀ s, Placed l s := fun l hl s ↦ .inl ((h l hl).ends s)

/-- The whole layout again, with what is read in the places of its tokens. -/
theorem laid_placed {f : Formatter} (hf : Between f) {ls : List Lexeme}
    (hls : ∀ l ∈ ls, Readable l) : ∃ out, Laid f ls out ∧ lexer.AllAt Placed out := by
  induction ls generalizing f with
  | nil =>
      refine ⟨_, Laid.nil hf, ?_⟩
      rw [← List.append_nil f.lineEnd]
      exact Tokenizer.AllAt.append (placed_blank isBlank_lineEnd) trivial
  | cons l ls ih =>
      have hrest : ∀ l ∈ ls, Readable l := fun l hl ↦ hls l (List.mem_cons_of_mem _ hl)
      have hfirst : Readable l := hls l List.mem_cons_self
      cases l with
      | blank c =>
          obtain ⟨out, hout, hplaced⟩ := ih hf hrest
          refine ⟨out, ⟨hout.output, hout.content_eq, hout.ends, hout.allEnd, hout.behind,
            hout.readable, fun d hd ↦ (hout.chars d hd).imp_right (Or.imp_right ?_)⟩, hplaced⟩
          exact List.mem_cons_of_mem c
      | comment text =>
          obtain ⟨out, hout, hplaced⟩ := ih (between_comment f text) hrest
          refine ⟨_, Laid.comment hf hfirst hout, ?_⟩
          obtain ⟨s, hs⟩ := hfirst
          have hcomment : Placed (.comment (trimEnd text)) (lexer.render (.blank '\n' :: out)) :=
            .inl (ends_trimmed hs _)
          have hnewline : Placed (.blank '\n') (lexer.render out) :=
            .inl (IsBlank.ends (.inr rfl) _)
          rw [commentLayout, List.append_assoc, List.append_assoc]
          apply Tokenizer.AllAt.append (placed_blank isBlank_lineEnd)
          apply Tokenizer.AllAt.append (placed_blank isBlank_blanks)
          exact ⟨hcomment, hnewline, hplaced⟩
      | token t =>
          obtain ⟨post, hstep, hbetween, hpost⟩ := step_output hf hfirst.spelled (nextText ls)
          obtain ⟨out, hout, hplaced⟩ := ih hbetween hrest
          refine ⟨_, Laid.token hf hfirst.spelled hstep hpost hout, ?_⟩
          have hpost' : post = [] ∧ (f.step t (nextText ls)).previous = t.text ∨
              post = [.blank '\n'] :=
            hpost.imp (fun h ↦ ⟨h.1, h.2.1⟩) And.left
          have hblank : ∀ l ∈ post, IsBlank l := by
            rcases hpost' with ⟨rfl, -⟩ | rfl
            · simp
            · exact fun _ hl ↦ Or.inr (List.mem_singleton.mp hl)
          rw [List.append_assoc]
          apply Tokenizer.AllAt.append (placed_blank isBlank_lead)
          exact ⟨placed_token hfirst.spelled hpost' hout,
            Tokenizer.AllAt.append (placed_blank hblank) hplaced⟩

end Formatter

/-! ## The output as a file -/

def isTokenLexeme : Lexeme → Bool
  | .token _ => true
  | _ => false

theorem filter_isTokenLexeme (ls : List Lexeme) :
    ls.filter isTokenLexeme = (tokensOf ls).map .token := by
  induction ls with
  | nil => rfl
  | cons l ls ih =>
      cases l with
      | blank c => exact ih
      | comment text => exact ih
      | token t => exact congrArg (Lexeme.token t :: ·) ih

/-- What is laid out is read back if the lexer finds the same tokens. -/
theorem allEnd_of_tokens {out ps : List Lexeme} (hplaced : lexer.AllAt Formatter.Placed out)
    (hscan : lexer.scan (lexer.render out) = some ps) (htokens : tokensOf ps = tokensOf out) :
    lexer.AllEnd out := by
  refine Tokenizer.allEnd_of_allAt isTokenLexeme id ?_ hscan ?_
  · clear hscan htokens
    induction out with
    | nil => trivial
    | cons l out ih =>
        refine ⟨?_, ih hplaced.2⟩
        rcases hplaced.1 with hend | ⟨t, rfl, ht, hcomment⟩
        · exact .inl hend
        · right
          refine ⟨rfl, ht.ne_nil, ?_⟩
          intro l' hread
          cases l' with
          | token u => exact ⟨rfl, id⟩
          | comment text => exact absurd hread (hcomment text)
          | blank c => exact absurd hread (ht.ne_blank _ c)
  · rw [List.map_id, List.map_id, filter_isTokenLexeme, filter_isTokenLexeme, htokens]

/-- Files with the same tokens have the same lexemes up to blanks and comments. -/
theorem tokensOf_of_lex {file output : List Char} {ls : List Lexeme}
    (hfile : lexemes file = some ls) (hlex : (lex file).isSome = true)
    (h : (lex output).map (List.map Prod.fst) = (lex file).map (List.map Prod.fst)) :
    ∃ ps, lexemes output = some ps ∧ tokensOf ps = tokensOf ls := by
  have hsome : (lex output).isSome = true := by
    rw [← Option.isSome_map, h, Option.isSome_map]
    exact hlex
  cases houtput : lexemes output with
  | none =>
      rw [lexemes] at houtput
      rw [lex, houtput] at hsome
      cases hsome
  | some ps =>
      refine ⟨ps, rfl, ?_⟩
      have hlexed := hsome
      rw [← Option.isSome_map (f := List.map Prod.fst), lex_of_lexemes houtput] at hsome
      rw [← Option.isSome_map (f := List.map Prod.fst), lex_of_lexemes hfile] at hlex
      rw [lex_of_lexemes houtput, lex_of_lexemes hfile] at h
      split at h
      · split at h
        · exact List.append_cancel_right (Option.some.inj h)
        · cases h
      · rename_i hlimit
        rw [if_neg hlimit] at hsome
        cases hsome

/-- A file is formatted unless the limit on braces is reached. -/
theorem format_isSome_iff {file : List Char} {ls : List Lexeme} (hls : lexemes file = some ls)
    (hlex : (lex file).isSome = true) :
    (format file).isSome = true ↔ ¬Formatter.TooDeepIn Formatter.start ls := by
  obtain ⟨hsource, hall⟩ := Tokenizer.allEnd_of_scan hls
  have htokens : lex file = some (tokensAt ⟨1, 1⟩ ls) := by
    rw [lexemes] at hls
    rw [lex, hls] at hlex ⊢
    dsimp only at hlex ⊢
    split at hlex
    · rename_i hlimit
      rw [if_pos hlimit]
    · cases hlex
  have hnil : Formatter.IsGap [] := fun x hx ↦ by cases hx
  have hloop : (formatLoop Formatter.start (lexer.render ls) ⟨1, 1⟩
      (tokensAt ⟨1, 1⟩ ls)).isSome = true ↔ ¬Formatter.TooDeepIn Formatter.start ls :=
    Formatter.formatLoop_isSome_iff hnil hall
  rw [← hloop, format, htokens]
  dsimp only
  rw [hsource]
  cases formatLoop Formatter.start (lexer.render ls) ⟨1, 1⟩ (tokensAt ⟨1, 1⟩ ls) <;> rfl

/-- Formatting the output again changes nothing if the output has the tokens of the file. -/
theorem format_format {file output : List Char} (h : format file = some output)
    (htokens : (lex output).map (List.map Prod.fst) = (lex file).map (List.map Prod.fst)) :
    format output = some output := by
  obtain ⟨ls, hls, hlex, houtput⟩ := lexemes_of_format h
  obtain ⟨out, hlaid, hplaced⟩ := Formatter.laid_placed Formatter.between_start
    (readable_of_allEnd (Tokenizer.allEnd_of_scan hls).2)
  have hrender : output = lexer.render out := houtput.trans hlaid.output
  obtain ⟨ps, hps, hsame⟩ := tokensOf_of_lex hls hlex htokens
  have hscan : lexer.scan (lexer.render out) = some ps := by
    rw [← lexemes_laid hls hlaid, ← hrender]
    exact hps
  have hout : tokensOf ps = tokensOf out := by
    rw [hsame, ← tokensOf_content ls, ← hlaid.content_eq, tokensOf_content]
  have hread : lexemes output = some out := by
    rw [hrender, lexemes_laid hls hlaid, (allEnd_of_tokens hplaced hscan hout).scan]
  have hlex' : (lex output).isSome = true := by
    rw [← Option.isSome_map (f := List.map Prod.fst), htokens, Option.isSome_map]
    exact hlex
  have hdeep : ¬Formatter.TooDeepIn Formatter.start out := by
    rw [← Formatter.tooDeepIn_content, hlaid.content_eq, Formatter.tooDeepIn_content]
    exact (format_isSome_iff hls hlex).mp (by rw [h]; rfl)
  obtain ⟨again, hagain⟩ :=
    Option.isSome_iff_exists.mp ((format_isSome_iff hread hlex').mpr hdeep)
  obtain ⟨out', hout', -, hlayout⟩ := lexemes_of_format hagain
  obtain rfl : out = out' := Option.some.inj (hread.symm.trans hout')
  rw [hagain, hlayout, ← Formatter.layout_content, hlaid.content_eq, Formatter.layout_content,
    ← houtput]

theorem format_format_comment :
    format "switch (a) \x7b\n    case 1:\n        b(-1);\n        // b\n\x7d\n".toList =
      some "switch (a) \x7b\n    case 1:\n        b(-1);\n        // b\n\x7d\n".toList := by
  have hformat : format "switch(a) \x7b case 1: b(- 1);  // b \n\x7d".toList =
      some "switch (a) \x7b\n    case 1:\n        b(-1);\n        // b\n\x7d\n".toList := by
    decide +kernel
  exact format_format hformat (by decide +kernel)

end TinyCPlus.Compiler
