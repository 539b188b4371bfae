import TinyCPlus.Compiler.FormatterRoundTrip
import TinyCPlus.Compiler.PrintedTokens

/-!
# Where tokens stand

`lex` counts lines and columns by hand in each of its branches, and the formatter counts
them once more to find the tokens again.  Both agree with what is written in front of a
token.
-/

namespace TinyCPlus.Compiler

open TinyCPlus.Library

/-! ## Counting in `lex` -/

/-- The position behind a block comment from inside `level` opening marks. -/
def blockCommentLoc : ℕ → Loc → List Char → Loc
  | 0, l, _ => l
  | _ + 1, l, [] => l
  | level + 1, l, '/' :: '*' :: s => blockCommentLoc (level + 2) ⟨l.line, l.col + 2⟩ s
  | level + 1, l, '*' :: '/' :: s => blockCommentLoc level ⟨l.line, l.col + 2⟩ s
  | level + 1, l, c :: s =>
      blockCommentLoc (level + 1) (if c = '\n' then ⟨l.line + 1, 1⟩ else ⟨l.line, l.col + 1⟩) s

/-- The position behind a lexeme of the source `s`.  The branches for tokens move on by
one column with every byte. -/
def Lexeme.behind (l : Loc) (s : List Char) : Lexeme → Loc
  | .blank c => if c = '\n' then ⟨l.line + 1, 1⟩ else ⟨l.line, l.col + 1⟩
  | .comment text =>
      if s.tail.head? = some '/' then ⟨l.line, l.col + text.length⟩
      else blockCommentLoc 1 ⟨l.line, l.col + 2⟩ (s.drop 2)
  | .token t => ⟨l.line, l.col + t.text.length⟩

/-- The tokens of the lexemes of the source `s`, with the position where each starts. -/
def countedTokens : Loc → List Char → List Lexeme → List (Token × Loc)
  | l, _, [] => [(⟨.eof, []⟩, l)]
  | l, s, x :: ls =>
      let behind := countedTokens (x.behind l s) (s.drop x.text.length) ls
      match x with
      | .token t => (t, l) :: behind
      | _ => behind

/-- `lex` with the positions as it counts them. -/
def lexCounting (file : List Char) : Option (List (Token × Loc)) :=
  let source := skipByteOrderMark (cString file)
  match lexer.scan source with
  | none => none
  | some lexemes =>
      let tokens := countedTokens ⟨1, 1⟩ source lexemes
      if tokens.length ≤ tokenLimit then some tokens else none

theorem blockCommentLoc_eq {level : ℕ} {s t : List Char} (h : blockComment level s = some t)
    (l : Loc) : blockCommentLoc level l s = l.advance t := by
  fun_induction blockComment level s generalizing l t with
  | case1 =>
      cases h
      rw [blockCommentLoc, Loc.advance]
  | case2 => cases h
  | case3 level s ih =>
      obtain ⟨t, ht, rfl⟩ := Option.map_eq_some_iff.mp h
      rw [blockCommentLoc, ih ht]
      rfl
  | case4 level s ih =>
      obtain ⟨t, ht, rfl⟩ := Option.map_eq_some_iff.mp h
      rw [blockCommentLoc, ih ht]
      rfl
  | case5 level c s hopen hclose ih =>
      obtain ⟨t, ht, rfl⟩ := Option.map_eq_some_iff.mp h
      rw [blockCommentLoc, ih ht]
      · split
        · rename_i hc
          rw [hc, Loc.advance]
        · rename_i hc
          rw [Loc.advance]
          exact hc
      · exact hopen
      · exact hclose

/-- Every branch of `lex` moves on by the text that it takes. -/
theorem Lexeme.behind_eq {s : List Char} {x : Lexeme} (h : lexeme (x.text ++ s) = some x)
    (l : Loc) : x.behind l (x.text ++ s) = l.advance x.text := by
  cases x with
  | blank c =>
      rw [behind]
      split
      · rename_i hc
        rw [hc]
        rfl
      · rename_i hc
        rw [text, Loc.advance]
        · rfl
        · exact hc
  | comment text =>
      rcases Formatter.comment_cases h with ⟨body, rfl, hbody, -⟩ | ⟨r, t, rfl, hs, ht⟩
      · exact (Loc.advance_of_not_mem hbody).symm
      · injection hs with _ hs
        injection hs with _ hs
        subst hs
        have hcomment : blockComment 1 (t ++ s) = some t := ht
        exact blockCommentLoc_eq hcomment ⟨l.line, l.col + 2⟩
  | token t => exact (Loc.advance_of_not_mem (spelled_of_lexeme h).no_newline).symm

theorem countedTokens_eq {ls : List Lexeme} (h : lexer.AllEnd ls) (l : Loc) :
    countedTokens l (lexer.render ls) ls = tokensAt l ls := by
  induction ls generalizing l with
  | nil => rfl
  | cons x ls ih =>
      have hbehind : countedTokens (x.behind l (lexer.render (x :: ls)))
          ((lexer.render (x :: ls)).drop x.text.length) ls = tokensAt (l.advance x.text) ls := by
        have hsource : lexer.render (x :: ls) = x.text ++ lexer.render ls := rfl
        rw [hsource, x.behind_eq h.1, List.drop_left, ih h.2]
      cases x with
      | blank c => exact hbehind
      | comment text => exact hbehind
      | token t => exact congrArg ((t, l) :: ·) hbehind

theorem lexCounting_eq (file : List Char) : lexCounting file = lex file := by
  rw [lexCounting, lex]
  cases hscan : lexer.scan (skipByteOrderMark (cString file)) with
  | none => rfl
  | some ls =>
      obtain ⟨hsource, hall⟩ := Tokenizer.allEnd_of_scan hscan
      dsimp only
      rw [hsource, countedTokens_eq hall]

/-! ## The cursor of the formatter -/

/-- Where the cursor of `tc_format_file` stands at each token but the last. -/
def cursor (source : List Char) : ℕ → Loc → List (Token × Loc) → List ℕ
  | position, l, (t, target) :: next :: rest =>
      let n := gapLength target l (source.drop position)
      let l := l.advance ((source.drop position).take n)
      (position + n) :: cursor source (position + n + t.text.length)
        ⟨l.line, l.col + t.text.length⟩ (next :: rest)
  | _, _, _ => []

/-! ## What a source is made of -/

/-- White space and comments. -/
inductive GapText : List Char → Prop
  | nil : GapText []
  | space {c : Char} {s : List Char} (hc : isSpace c = true) (hs : GapText s) : GapText (c :: s)
  | line {body s : List Char} (hbody : '\n' ∉ body) (hend : ∀ c ∈ s.head?, c = '\n')
      (hs : GapText s) : GapText ('/' :: '/' :: body ++ s)
  | block {body s : List Char} (hbody : blockComment 1 body = some body) (hs : GapText s) :
      GapText ('/' :: '*' :: body ++ s)

/-- A token with the gap in front of it. -/
structure Piece where
  gap : List Char
  token : Token
  loc : Loc

namespace Piece

def text (p : Piece) : List Char := p.gap ++ p.token.text

def texts (ps : List Piece) : List Char := ps.flatMap text

def positioned (p : Piece) : Token × Loc := (p.token, p.loc)

end Piece

/-- The line and the byte column that follow a text. -/
def lineColumn (before : List Char) : Loc :=
  ⟨1 + before.count '\n', 1 + (before.rtakeWhile (· != '\n')).length⟩

theorem advance_eq_lineColumn (before : List Char) :
    (Loc.mk 1 1).advance before = lineColumn before := by
  induction before using List.reverseRecOn with
  | nil => rfl
  | append_singleton before c ih =>
      rw [Loc.advance_append, ih, lineColumn, lineColumn]
      by_cases hc : c = '\n'
      · rw [hc, List.rtakeWhile_concat_neg _ _ _ (by simp), List.count_append]
        rfl
      · rw [List.rtakeWhile_concat_pos _ _ _ (by simpa using hc), List.count_append,
          List.count_singleton, if_neg (by simpa using hc), Loc.advance, Loc.advance]
        · simp only [List.length_append, List.length_singleton, Nat.add_assoc, Nat.add_zero]
        · exact hc

/-- The pieces of a sequence of lexemes. -/
def pieces : Loc → List Lexeme → List Piece
  | l, [] => [⟨[], ⟨.eof, []⟩, l⟩]
  | l, .token t :: ls => ⟨[], t, l⟩ :: pieces (l.advance t.text) ls
  | l, x :: ls =>
      match pieces (l.advance x.text) ls with
      | p :: ps => { p with gap := x.text ++ p.gap } :: ps
      | [] => []

/-- The position of every piece is the one behind what is in front of its token. -/
def Laid : Loc → List Piece → Prop
  | _, [] => True
  | l, p :: ps => p.loc = l.advance p.gap ∧ Laid (l.advance p.text) ps

theorem Laid.loc_eq {l : Loc} {before after : List Piece} {p : Piece}
    (h : Laid l (before ++ p :: after)) : p.loc = l.advance (Piece.texts before ++ p.gap) := by
  induction before generalizing l with
  | nil => exact h.1
  | cons q before ih =>
      rw [ih h.2, ← Loc.advance_append]
      simp only [Piece.texts, List.flatMap_cons, List.append_assoc]

/-! ## The pieces of a source -/

theorem pieces_eof (l : Loc) (ls : List Lexeme) : pieces l ls ≠ [] := by
  fun_induction pieces l ls with
  | case1 => exact List.cons_ne_nil _ _
  | case2 => exact List.cons_ne_nil _ _
  | case3 => exact List.cons_ne_nil _ _
  | case4 l x ls _ hnil ih => exact absurd hnil ih

/-- A blank or a comment goes into the gap of the piece behind it. -/
theorem pieces_gap (l : Loc) {x : Lexeme} (hx : ¬ Formatter.IsToken x) (ls : List Lexeme) :
    ∃ p ps, pieces (l.advance x.text) ls = p :: ps ∧
      pieces l (x :: ls) = { p with gap := x.text ++ p.gap } :: ps := by
  obtain ⟨p, ps, hps⟩ := List.exists_cons_of_ne_nil (pieces_eof (l.advance x.text) ls)
  refine ⟨p, ps, hps, ?_⟩
  cases x with
  | blank c => rw [pieces, hps]; simp
  | comment text => rw [pieces, hps]; simp
  | token t => exact absurd trivial hx

theorem texts_pieces (l : Loc) (ls : List Lexeme) :
    Piece.texts (pieces l ls) = lexer.render ls := by
  induction ls generalizing l with
  | nil => rfl
  | cons x ls ih =>
      by_cases hx : Formatter.IsToken x
      · cases x with
        | token t => exact congrArg (t.text ++ ·) (ih _)
        | _ => cases hx
      · obtain ⟨p, ps, hps, hcons⟩ := pieces_gap l hx ls
        have hrest := ih (l.advance x.text)
        rw [hps] at hrest
        rw [hcons, Tokenizer.render_cons, ← hrest]
        simp only [Piece.texts, List.flatMap_cons, Piece.text, List.append_assoc]
        rfl

theorem positioned_pieces (l : Loc) (ls : List Lexeme) :
    (pieces l ls).map Piece.positioned = tokensAt l ls := by
  induction ls generalizing l with
  | nil => rfl
  | cons x ls ih =>
      by_cases hx : Formatter.IsToken x
      · cases x with
        | token t => exact congrArg ((t, l) :: ·) (ih _)
        | _ => cases hx
      · obtain ⟨p, ps, hps, hcons⟩ := pieces_gap l hx ls
        have hrest := ih (l.advance x.text)
        rw [hps] at hrest
        rw [hcons]
        cases x with
        | token t => exact absurd trivial hx
        | blank c => exact hrest
        | comment text => exact hrest

theorem laid_pieces (l : Loc) (ls : List Lexeme) : Laid l (pieces l ls) := by
  induction ls generalizing l with
  | nil => exact ⟨rfl, trivial⟩
  | cons x ls ih =>
      by_cases hx : Formatter.IsToken x
      · cases x with
        | token t => exact ⟨rfl, ih _⟩
        | _ => cases hx
      · obtain ⟨p, ps, hps, hcons⟩ := pieces_gap l hx ls
        have hrest := ih (l.advance x.text)
        rw [hps] at hrest
        rw [hcons]
        refine ⟨?_, ?_⟩
        · rw [Loc.advance_append]
          exact hrest.1
        · have htext : Piece.text { p with gap := x.text ++ p.gap } = x.text ++ p.text :=
            List.append_assoc _ _ _
          rw [htext, Loc.advance_append]
          exact hrest.2

theorem spelled_of_allEnd {ls : List Lexeme} (h : lexer.AllEnd ls) :
    ∀ t, Lexeme.token t ∈ ls → Spelled t := by
  induction ls with
  | nil => exact fun t ht ↦ absurd ht List.not_mem_nil
  | cons x ls ih =>
      intro t ht
      rcases List.mem_cons.mp ht with rfl | ht
      · exact spelled_of_lexeme h.1
      · exact ih h.2 t ht

theorem mem_of_tokensOf {ls : List Lexeme} {t : Token} (h : t ∈ tokensOf ls) :
    .token t ∈ ls := by
  obtain ⟨x, hx, htoken⟩ := List.mem_filterMap.mp h
  cases x with
  | token u =>
      cases htoken
      exact hx
  | _ => cases htoken

theorem token_pieces {l : Loc} {ls : List Lexeme} {p : Piece} (hp : p ∈ pieces l ls) :
    p.token = ⟨.eof, []⟩ ∨ .token p.token ∈ ls := by
  have hmem : p.token ∈ tokensOf ls ++ [⟨.eof, []⟩] := by
    rw [← tokensAt_map_fst l, ← positioned_pieces, List.map_map]
    exact List.mem_map.mpr ⟨p, hp, rfl⟩
  rcases List.mem_append.mp hmem with hmem | hmem
  · exact Or.inr (mem_of_tokensOf hmem)
  · exact Or.inl (List.mem_singleton.mp hmem)

theorem no_newline_pieces {l : Loc} {ls : List Lexeme} (h : lexer.AllEnd ls) {p : Piece}
    (hp : p ∈ pieces l ls) : '\n' ∉ p.token.text := by
  rcases token_pieces hp with heof | hmem
  · rw [heof]
    exact List.not_mem_nil
  · exact (spelled_of_allEnd h _ hmem).no_newline

/-- A line comment goes on to the end of the line. -/
theorem gap_of_line {text s : List Char} (htext : text = (text ++ s).takeWhile (· != '\n')) :
    ∀ c ∈ s.head?, c = '\n' := by
  obtain ⟨-, hstop⟩ := takeWhile_append_eq_iff.mp htext.symm
  intro c hc
  simpa using hstop c hc

/-- Every gap is white space and comments, by induction on the lexemes. -/
theorem gapText_pieces {ls : List Lexeme} (h : lexer.AllEnd ls) (l : Loc) :
    ∀ p ∈ pieces l ls, GapText p.gap := by
  induction ls generalizing l with
  | nil =>
      intro p hp
      rw [List.mem_singleton.mp hp]
      exact .nil
  | cons x ls ih =>
      intro p hp
      by_cases hx : Formatter.IsToken x
      · cases x with
        | token t =>
            rcases List.mem_cons.mp hp with rfl | hp
            · exact .nil
            · exact ih h.2 _ p hp
        | _ => cases hx
      · obtain ⟨q, ps, hps, hcons⟩ := pieces_gap l hx ls
        have hrest := ih h.2 (l.advance x.text)
        rw [hps] at hrest
        rw [hcons] at hp
        rcases List.mem_cons.mp hp with rfl | hp
        · have hgap := hrest q List.mem_cons_self
          cases x with
          | token t => exact absurd trivial hx
          | blank c =>
              have hblank : lexeme ([c] ++ lexer.render ls) = some (.blank c) := h.1
              exact .space (Formatter.isSpace_of_lexeme hblank) hgap
          | comment text =>
              rcases Formatter.comment_cases h.1 with ⟨body, rfl, hbody, htext⟩ | ⟨r, t, rfl, hs, ht⟩
              · rw [List.mem_cons, not_or, List.mem_cons, not_or] at hbody
                refine .line hbody.2.2 (fun c hc ↦ ?_) hgap
                apply gap_of_line htext c
                rw [← texts_pieces (l.advance _) ls, hps, Option.mem_def, Piece.texts,
                  List.flatMap_cons, Piece.text, List.append_assoc, List.head?_append, hc]
                rfl
              · have hblock := Formatter.blockComment_append ht []
                rw [List.append_nil] at hblock
                exact .block hblock hgap
        · exact hrest p (List.mem_cons_of_mem q hp)

/-! ## The cursor finds the tokens -/

theorem cursor_step {source : List Char} {position : ℕ} {l : Loc} {p : Piece} {s : List Char}
    (hsource : source.drop position = p.text ++ s) (hloc : p.loc = l.advance p.gap)
    (hline : '\n' ∉ p.token.text) {rest : List (Token × Loc)} (hrest : rest ≠ []) :
    cursor source position l (p.positioned :: rest) =
      (position + p.gap.length) ::
        cursor source (position + p.text.length) (l.advance p.text) rest := by
  obtain ⟨next, rest, rfl⟩ := List.exists_cons_of_ne_nil hrest
  have hgap : source.drop position = p.gap ++ (p.token.text ++ s) :=
    hsource.trans (List.append_assoc _ _ _)
  have hlength : gapLength p.loc l (source.drop position) = p.gap.length := by
    rw [hgap, hloc, gapLength_eq]
  have hadvance : Loc.mk (l.advance p.gap).line ((l.advance p.gap).col + p.token.text.length) =
      l.advance p.text := by
    rw [Piece.text, Loc.advance_append, Loc.advance_of_not_mem hline]
  rw [Piece.positioned, cursor, hlength, hgap, List.take_left, hadvance, Piece.text,
    List.length_append, Nat.add_assoc position]

theorem cursor_eq {source : List Char} {position : ℕ} {l : Loc} {before after : List Piece}
    {p : Piece} (hsource : source.drop position = Piece.texts (before ++ p :: after))
    (hlaid : Laid l (before ++ p :: after))
    (hline : ∀ q ∈ before ++ p :: after, '\n' ∉ q.token.text) (hafter : after ≠ []) :
    (cursor source position l ((before ++ p :: after).map Piece.positioned))[before.length]? =
      some (position + (Piece.texts before ++ p.gap).length) := by
  induction before generalizing position l with
  | nil =>
      have hrest : after.map Piece.positioned ≠ [] := by simpa using hafter
      rw [List.nil_append, List.map_cons, cursor_step hsource hlaid.1
        (hline p List.mem_cons_self) hrest]
      rfl
  | cons q before ih =>
      have hrest : (before ++ p :: after).map Piece.positioned ≠ [] := by simp
      have hnext : source.drop (position + q.text.length) = Piece.texts (before ++ p :: after) := by
        rw [← List.drop_drop, hsource, Piece.texts, List.cons_append, List.flatMap_cons,
          List.drop_left]
        rfl
      rw [List.cons_append, List.map_cons, cursor_step hsource hlaid.1
        (hline q List.mem_cons_self) hrest, List.length_cons, List.getElem?_cons_succ,
        ih hnext hlaid.2 fun r hr ↦ hline r (List.mem_cons_of_mem q hr)]
      simp only [Piece.texts, List.flatMap_cons, List.length_append]
      rw [Nat.add_assoc, Nat.add_assoc]

/-! ## Tokens joined by blanks -/

/-- Texts with a blank between any two. -/
def joined (texts : List (List Char)) : List Char := List.intercalate [' '] texts

theorem joined_eq (ts : List Token) :
    joined (ts.map Token.text) = lexer.render (Tree.spaced ts) := by
  induction ts with
  | nil => rfl
  | cons t ts ih =>
      cases ts with
      | nil => rw [Tree.spaced]; rfl
      | cons t' ts =>
          have htail : joined ((t :: t' :: ts).map Token.text) =
              t.text ++ ' ' :: joined ((t' :: ts).map Token.text) := rfl
          rw [htail, ih]
          rfl

theorem not_mem_joined {c : Char} (hc : c ≠ ' ') {ts : List Token}
    (h : ∀ t ∈ ts, c ∉ t.text) : c ∉ joined (ts.map Token.text) := by
  induction ts with
  | nil => exact List.not_mem_nil
  | cons t ts ih =>
      have ht := h t List.mem_cons_self
      have hts := ih fun u hu ↦ h u (List.mem_cons_of_mem t hu)
      cases ts with
      | nil =>
          intro hmem
          exact ht ((List.append_nil t.text).subst hmem)
      | cons t' ts =>
          have htail : joined ((t :: t' :: ts).map Token.text) =
              t.text ++ ' ' :: joined ((t' :: ts).map Token.text) := rfl
          rw [htail, List.mem_append, List.mem_cons, not_or, not_or]
          exact ⟨ht, hc, hts⟩

theorem readable_spaced {ts : List Token} (h : ∀ t ∈ ts, Spelled t) :
    ∀ l ∈ Tree.spaced ts, Formatter.Readable l :=
  readable_of_allEnd (Tree.spaced_allEnd h)

/-- Tokens joined by blanks are read back. -/
theorem lex_joined {ts : List Token} (h : ∀ t ∈ ts, Spelled t)
    (hzero : ∀ t ∈ ts, Char.ofNat 0 ∉ t.text) (hlimit : ts.length + 1 ≤ tokenLimit) :
    (lexCounting (joined (ts.map Token.text))).map (·.map Prod.fst) =
      some (ts ++ [⟨.eof, []⟩]) := by
  have hchars := not_mem_joined (by decide) hzero
  have hscan : lexer.scan (skipByteOrderMark (cString (joined (ts.map Token.text)))) =
      some (Tree.spaced ts) := by
    rw [cString_eq hchars, joined_eq, skipByteOrderMark_eq (readable_spaced h)]
    exact (Tree.spaced_allEnd h).scan
  have htokens := Tree.tokensAt_spaced ⟨1, 1⟩ ts
  have hlength : (tokensAt ⟨1, 1⟩ (Tree.spaced ts)).length = ts.length + 1 := by
    have hmap := congrArg List.length htokens
    rwa [List.length_map, List.length_append] at hmap
  rw [lexCounting_eq, lex, hscan]
  dsimp only
  rw [if_pos (hlength.trans_le hlimit), Option.map_some, htokens]

/-! ## Positions of tokens -/

theorem source_mark (file : List Char) : cString file =
    (if byteOrderMark.isPrefixOf (cString file) then byteOrderMark else []) ++
      skipByteOrderMark (cString file) := by
  rw [skipByteOrderMark]
  split
  · rename_i hmark
    obtain ⟨rest, hrest⟩ := List.isPrefixOf_iff_prefix.mp hmark
    rw [← hrest]
    rfl
  · rfl

/-- The tokens of a source with the gaps in front of them are the source, up to a mark at its
start.  Each token stands at the line and column that `lex` counts, the cursor of the
formatter lands on it, and the texts joined by blanks are read as the same tokens. -/
theorem lex_positions {file : List Char} {tokens : List (Token × Loc)}
    (h : lexCounting file = some tokens) :
    ∃ mark ps ts, mark = (if byteOrderMark.isPrefixOf (cString file) then byteOrderMark else []) ∧
      cString file = mark ++ Piece.texts ps ∧ ps.map Piece.positioned = tokens ∧
      (∀ p ∈ ps, GapText p.gap) ∧
      (∀ before p after, ps = before ++ p :: after →
        p.loc = lineColumn (Piece.texts before ++ p.gap) ∧
        (after ≠ [] → (cursor (cString file) mark.length ⟨1, 1⟩ tokens)[before.length]? =
          some (mark ++ Piece.texts before ++ p.gap).length)) ∧
      tokens.map Prod.fst = ts ++ [⟨.eof, []⟩] ∧
      (lexCounting (joined (ts.map Token.text))).map (·.map Prod.fst) =
        some (tokens.map Prod.fst) := by
  rw [lexCounting_eq, lex] at h
  split at h
  · cases h
  · rename_i ls hscan
    dsimp only at h
    split at h
    · rename_i hlimit
      cases h
      obtain ⟨hsource, hall⟩ := Tokenizer.allEnd_of_scan hscan
      have hpositioned := positioned_pieces ⟨1, 1⟩ ls
      have hlaid := laid_pieces ⟨1, 1⟩ ls
      have hmark := source_mark file
      generalize (if byteOrderMark.isPrefixOf (cString file) then byteOrderMark else []) = mark
        at hmark
      refine ⟨_, pieces ⟨1, 1⟩ ls, tokensOf ls, rfl, ?_, hpositioned, gapText_pieces hall _, ?_,
        tokensAt_map_fst _ ls, ?_⟩
      · rw [texts_pieces, ← hsource, ← hmark]
      · intro before p after hsplit
        rw [hsplit] at hlaid
        constructor
        · rw [hlaid.loc_eq, advance_eq_lineColumn]
        · intro hafter
          have hdrop : (cString file).drop mark.length = Piece.texts (before ++ p :: after) := by
            rw [← hsplit, texts_pieces, ← hsource]
            exact (congrArg (List.drop mark.length) hmark).trans List.drop_left
          have hline : ∀ q ∈ before ++ p :: after, '\n' ∉ q.token.text := by
            rw [← hsplit]
            exact fun q hq ↦ no_newline_pieces hall hq
          rw [← hpositioned, hsplit, cursor_eq hdrop hlaid hline hafter, List.append_assoc]
          exact congrArg some List.length_append.symm
      · have hspelled : ∀ t ∈ tokensOf ls, Spelled t :=
          fun t ht ↦ spelled_of_allEnd hall t (mem_of_tokensOf ht)
        have hzero : ∀ t ∈ tokensOf ls, Char.ofNat 0 ∉ t.text := by
          intro t ht hmem
          apply not_mem_cString file
          apply skipByteOrderMark_subset
          rw [hsource]
          exact List.mem_flatMap.mpr ⟨_, mem_of_tokensOf ht, hmem⟩
        have htokens := tokensAt_map_fst ⟨1, 1⟩ ls
        have hlength := congrArg List.length htokens
        rw [List.length_map, List.length_append] at hlength
        rw [htokens]
        exact lex_joined hspelled hzero (hlength.ge.trans hlimit)
    · cases h

theorem lex_positions_shown : ∃ tokens,
    lexCounting (byteOrderMark ++ "/* a\n */ x>>=\t'\\n' // b".toList) = some tokens ∧
      ∃ mark ps, cString (byteOrderMark ++ "/* a\n */ x>>=\t'\\n' // b".toList) =
        mark ++ Piece.texts ps ∧ ps.map Piece.positioned = tokens := by
  refine ⟨[(⟨.id, ['x']⟩, ⟨2, 5⟩), (⟨.op, ">>=".toList⟩, ⟨2, 6⟩),
    (⟨.char, "'\\n'".toList⟩, ⟨2, 10⟩), (⟨.eof, []⟩, ⟨2, 19⟩)], by decide +kernel, ?_⟩
  obtain ⟨mark, ps, -, -, hsource, hpositioned, -⟩ := lex_positions
    (show lexCounting (byteOrderMark ++ "/* a\n */ x>>=\t'\\n' // b".toList) =
      some [(⟨.id, ['x']⟩, ⟨2, 5⟩), (⟨.op, ">>=".toList⟩, ⟨2, 6⟩),
        (⟨.char, "'\\n'".toList⟩, ⟨2, 10⟩), (⟨.eof, []⟩, ⟨2, 19⟩)] by decide +kernel)
  exact ⟨mark, ps, hsource, hpositioned⟩

end TinyCPlus.Compiler
