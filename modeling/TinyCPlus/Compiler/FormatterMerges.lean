import TinyCPlus.Compiler.FormatterTurns

/-!
# When the formatter keeps the tokens apart

The layout of a sequence of lexemes is read back exactly when no token is
written side by side with a text that it would swallow.
-/

namespace TinyCPlus.Compiler

open TinyCPlus.Library

namespace Formatter

/-! ## The layout of a source -/

/-- The text of the next token, empty at the end of the file. -/
def nextText : List Lexeme → List Char
  | [] => []
  | .token t :: _ => t.text
  | _ :: ls => nextText ls

/-- The turns of the formatter for the lexemes of a source. -/
def layout : Formatter → List Lexeme → Formatter
  | f, [] => f
  | f, .blank _ :: ls => layout f ls
  | f, .comment text :: ls => layout (f.comment text) ls
  | f, .token t :: ls => layout (f.step t (nextText ls)) ls

/-- What is written side by side with the output so far. -/
def behind : Formatter → List Lexeme → List Char
  | _, [] => []
  | f, .blank _ :: ls => behind f ls
  | _, .comment _ :: _ => []
  | f, .token t :: ls =>
      if f.sideBySide t then t.text ++ behind (f.step t (nextText ls)) ls else []

/-- A token swallows the text behind it, or a part of it: an operator becomes a
longer one or opens a comment, an integer takes up a point, and the second
point behind a number that ends in one makes a range of it. -/
def Swallows (t : Token) (run : List Char) : Prop :=
  (t.kind = .op ∧ ∃ e ∈ extensions t.text, e <+: run) ∨
    (t.kind = .int ∧ isHexPrefix t.text = false ∧ PointAhead run) ∨
    (t.kind = .float ∧ t.text.getLast? = some '.' ∧ run.head? = some '.')

/-- Some token swallows what is written side by side with it. -/
def Merges : Formatter → List Lexeme → Prop
  | _, [] => False
  | f, .blank _ :: ls => Merges f ls
  | f, .comment text :: ls => Merges (f.comment text) ls
  | f, .token t :: ls =>
      Swallows t (behind (f.step t (nextText ls)) ls) ∨ Merges (f.step t (nextText ls)) ls

instance (s : List Char) : Decidable (PointAhead s) :=
  decidable_of_iff (fraction s ≠ []) (by rw [ne_eq, fraction_eq_nil_iff, not_not])

instance (t : Token) (run : List Char) : Decidable (Swallows t run) :=
  inferInstanceAs (Decidable (_ ∨ _))

instance decidableMerges : (f : Formatter) → (ls : List Lexeme) → Decidable (Merges f ls)
  | _, [] => inferInstanceAs (Decidable False)
  | f, .blank _ :: ls => decidableMerges f ls
  | f, .comment text :: ls => decidableMerges (f.comment text) ls
  | f, .token t :: ls =>
      have := decidableMerges (f.step t (nextText ls)) ls
      inferInstanceAs (Decidable (_ ∨ _))

/-- What the formatter has to keep: the tokens and the comments, these without
blanks at their ends. -/
def content (ls : List Lexeme) : List Lexeme :=
  (ls.filter fun | .blank _ => false | _ => true).map trimComment

/-! ## What stands behind a token -/

theorem behind_of_previous {f : Formatter} (h : f.previous = []) (ls : List Lexeme) :
    behind f ls = [] := by
  induction ls with
  | nil => rfl
  | cons l ls ih =>
      cases l with
      | blank c => exact ih
      | comment text => rfl
      | token t =>
          rw [behind, sideBySide, h]
          rfl

/-- Behind a word or a number that is followed by no letter or digit, the
lexer stops where the token ends unless the token swallows what follows. -/
theorem follows_iff_not_swallows {t : Token} {run : List Char}
    (h : t.kind ≠ .op → Stops isIdChar run) : Follows t run ↔ ¬ Swallows t run := by
  unfold Follows Swallows
  cases hkind : t.kind with
  | op => simp
  | id => simpa using h (by rw [hkind]; decide)
  | int =>
      have hstop := h (by rw [hkind]; decide)
      simp [NumberFollows, hkind, hstop]
  | float =>
      have hstop := h (by rw [hkind]; decide)
      simp [NumberFollows, hkind, hstop]
  | _ => simp

theorem tightPrevious_op : ∀ text ∈ tightPrevious,
    lexeme text = some (.token ⟨.op, text⟩) := by decide

theorem tightTexts_stops : ∀ text ∈ "(".toList :: tightTexts,
    text.head?.any isIdChar = false ∧ text ≠ [] := by decide

theorem stops_append {p : Char → Bool} {a : List Char} (h : Stops p a) (hne : a ≠ [])
    (s : List Char) : Stops p (a ++ s) := by
  cases a with
  | nil => exact absurd rfl hne
  | cons c a => exact h

/-- What is side by side with a word, a number or a literal starts with no
letter or digit. -/
theorem stops_behind {f : Formatter} {t : Token} (ht : Spelled t) (hkind : t.kind ≠ .op)
    (hprev : f.previous = t.text) (hglue : f.glue = false) (ls : List Lexeme) :
    Stops isIdChar (behind f ls) := by
  have hnot : tightPrevious.contains f.previous = false := by
    rw [hprev, Bool.eq_false_iff]
    intro hmem
    have hop := tightPrevious_op t.text (List.contains_iff_mem.mp hmem)
    rw [ht] at hop
    injection hop with hop
    injection hop with hop
    exact hkind (by rw [hop])
  induction ls with
  | nil => exact stops_nil _
  | cons l ls ih =>
      cases l with
      | blank c => exact ih
      | comment text => exact stops_nil _
      | token u =>
          rw [behind]
          split
          · rename_i hside
            rw [sideBySide, Bool.and_eq_true] at hside
            obtain ⟨-, htight⟩ := hside
            simp only [tight, hnot, hglue, Bool.or_false, Bool.or_eq_true, Bool.and_eq_true,
              beq_iff_eq, List.contains_iff_mem] at htight
            have hmem : u.text ∈ "(".toList :: tightTexts := by
              rcases htight with htight | ⟨htight, -⟩
              · exact List.mem_cons_of_mem _ htight
              · rw [htight]
                exact List.mem_cons_self
            obtain ⟨hstop, hne⟩ := tightTexts_stops _ hmem
            exact stops_append (any_head?_eq_false.mp hstop) hne _
          · exact stops_nil _

/-! ## The lexemes of the output -/

/-- A blank that the formatter writes. -/
def IsBlank (l : Lexeme) : Prop := l = .blank ' ' ∨ l = .blank '\n'

theorem IsBlank.ends {l : Lexeme} (h : IsBlank l) (s : List Char) : lexer.Ends l s := by
  rcases h with rfl | rfl
  · exact lexeme_space (c := ' ') rfl s
  · exact lexeme_space (c := '\n') rfl s

theorem isBlank_blanks {n : ℕ} : ∀ l ∈ blanks n, IsBlank l :=
  fun _ hl ↦ Or.inl (List.mem_replicate.mp hl).2

theorem isBlank_lineEnd {f : Formatter} : ∀ l ∈ f.lineEnd, IsBlank l := by
  rw [lineEnd]
  split
  · simp
  · exact fun _ hl ↦ Or.inr (List.mem_singleton.mp hl)

theorem isBlank_lead {f : Formatter} {t : Token} {next : List Char} :
    ∀ l ∈ f.lead t next, IsBlank l := by
  rw [lead]
  split
  · intro l hl
    rcases List.mem_append.mp hl with hl | hl
    · exact isBlank_lineEnd l hl
    · exact isBlank_blanks l hl
  · split
    · exact isBlank_blanks
    · split
      · simp
      · exact fun _ hl ↦ Or.inl (List.mem_singleton.mp hl)

theorem mem_render_of_isBlank {ls : List Lexeme} (h : ∀ l ∈ ls, IsBlank l) {c : Char}
    (hc : c ∈ lexer.render ls) : c = ' ' ∨ c = '\n' := by
  obtain ⟨l, hl, hcl⟩ := List.mem_flatMap.mp hc
  rcases h l hl with rfl | rfl
  · exact Or.inl (List.mem_singleton.mp hcl)
  · exact Or.inr (List.mem_singleton.mp hcl)

theorem content_append (xs ys : List Lexeme) : content (xs ++ ys) = content xs ++ content ys := by
  rw [content, List.filter_append, List.map_append]
  rfl

theorem content_comment (text : List Char) :
    content [.comment text, .blank '\n'] = [.comment (trimEnd text)] := rfl

theorem trimEnd_trimEnd (s : List Char) : trimEnd (trimEnd s) = trimEnd s :=
  List.rdropWhile_idempotent _ s

theorem content_of_isBlank {ls : List Lexeme} (h : ∀ l ∈ ls, IsBlank l) : content ls = [] := by
  rw [content, List.map_eq_nil_iff, List.filter_eq_nil_iff]
  intro l hl
  rcases h l hl with rfl | rfl <;> exact Bool.false_ne_true

/-- A text that starts with a blank or is empty. -/
def BlankOrEnd (s : List Char) : Prop := s = [] ∨ ∃ c r, isSpace c = true ∧ s = c :: r

theorem follows_append_blankOrEnd {t : Token} {s r : List Char} (h : BlankOrEnd r) :
    Follows t (s ++ r) ↔ Follows t s := by
  rcases h with rfl | ⟨c, r, hc, rfl⟩
  · rw [List.append_nil]
  · exact follows_append_space hc t s r

theorem lead_of_sideBySide {f : Formatter} (hf : Between f) {t : Token} (next : List Char)
    (h : f.sideBySide t = true) : f.lead t next = [] := by
  simp only [sideBySide, Bool.and_eq_true, bne_iff_ne, ne_eq, Bool.not_eq_true'] at h
  obtain ⟨⟨hprev, hclose⟩, htight⟩ := h
  rw [hf.previous, Bool.not_eq_true] at hprev
  simp [lead, hclose, hprev, htight]

theorem lead_of_not_sideBySide {f : Formatter} (hf : Between f) {t : Token} (next : List Char)
    (hprev : f.previous ≠ []) (h : f.sideBySide t = false) :
    ∃ c r, isSpace c = true ∧ f.lead t next = .blank c :: r := by
  have hline : f.lineStart = false := by
    rw [Bool.eq_false_iff]
    exact fun hline ↦ hprev (hf.previous.mpr hline)
  cases hclose : closesBrace t with
  | true =>
      refine ⟨'\n', blanks (4 * ((f.closeBrace t).caseLabel t next).indent.toNat), rfl, ?_⟩
      simp [lead, lineEnd, hclose, hline]
  | false =>
      have htight : f.tight t.text = false := by simpa [sideBySide, hprev, hclose] using h
      exact ⟨' ', [], rfl, by simp [lead, hclose, hline, htight]⟩

/-! ## The layout is read back -/

/-- A lexeme that the lexer reads somewhere. -/
def Readable (l : Lexeme) : Prop := ∃ s, lexeme s = some l

theorem Readable.spelled {t : Token} (h : Readable (.token t)) : Spelled t := by
  obtain ⟨s, hs⟩ := h
  obtain ⟨r, rfl⟩ := (lexeme_spec hs).1
  exact spelled_of_lexeme hs

theorem IsBlank.readable {l : Lexeme} (h : IsBlank l) : Readable l := ⟨_, h.ends []⟩

def IsToken : Lexeme → Prop
  | .token _ => True
  | _ => False

/-- `out` is what the formatter appends in state `f` for the lexemes `ls` and
the end of the file. -/
structure Laid (f : Formatter) (ls out : List Lexeme) : Prop where
  output : (layout f ls).newline.output = f.output ++ lexer.render out
  content_eq : content out = content ls
  ends : lexer.EndsBut IsToken out
  allEnd : lexer.AllEnd out ↔ ¬ Merges f ls
  behind : f.previous ≠ [] → ∃ rest, BlankOrEnd rest ∧ lexer.render out = behind f ls ++ rest
  readable : ∀ l ∈ out, Readable l
  chars : ∀ c ∈ lexer.render out, c = ' ' ∨ c = '\n' ∨ c ∈ lexer.render ls

theorem Laid.comment {f : Formatter} (hf : Between f) {text : List Char} {ls out : List Lexeme}
    (htext : Readable (.comment text)) (h : Laid (f.comment text) ls out) :
    Laid f (.comment text :: ls) (f.commentLayout text ++ out) := by
  obtain ⟨s, hs⟩ := htext
  have hblank : ∀ l ∈ f.lineEnd ++ blanks (4 * f.indent.toNat), IsBlank l := by
    intro l hl
    rcases List.mem_append.mp hl with hl | hl
    · exact isBlank_lineEnd l hl
    · exact isBlank_blanks l hl
  have hcomment : lexer.Ends (.comment (trimEnd text))
      (lexer.render (.blank '\n' :: out)) := ends_trimmed hs _
  have hnewline : lexer.Ends (.blank '\n') (lexer.render out) :=
    IsBlank.ends (Or.inr rfl) _
  refine ⟨?_, ?_, ?_, ?_, fun hprev ↦ ?_, ?_, ?_⟩
  · rw [layout, h.output, comment_output hf.trimmed hs, List.append_assoc,
      Tokenizer.render_append]
  · rw [commentLayout, List.append_assoc, content_append, content_of_isBlank hblank,
      List.nil_append, content_append, h.content_eq, content_comment, trimEnd_trimEnd]
    rfl
  · rw [commentLayout, List.append_assoc]
    exact Tokenizer.EndsBut.append (fun l hl ↦ (hblank l hl).ends)
      ⟨Or.inr hcomment, Or.inr hnewline, h.ends⟩
  · rw [commentLayout, List.append_assoc, Tokenizer.allEnd_append_iff
      (fun l hl ↦ (hblank l hl).ends)]
    exact (and_iff_right hcomment).trans ((and_iff_right hnewline).trans h.allEnd)
  · have hline : f.lineStart = false := by
      rw [Bool.eq_false_iff]
      exact fun hline ↦ hprev (hf.previous.mpr hline)
    have hfirst : f.commentLayout text = .blank '\n' ::
        (blanks (4 * f.indent.toNat) ++ [.comment (trimEnd text), .blank '\n']) := by
      rw [commentLayout, lineEnd, hline]
      rfl
    rw [hfirst]
    exact ⟨_, Or.inr ⟨'\n', _, rfl, rfl⟩, rfl⟩
  · intro l hl
    rw [commentLayout, List.append_assoc] at hl
    simp only [List.mem_append, List.mem_cons, List.not_mem_nil, or_false] at hl
    rcases hl with hl | (rfl | rfl) | hl
    · exact (hblank l (List.mem_append.mpr hl)).readable
    · exact ⟨_, hcomment⟩
    · exact IsBlank.readable (Or.inr rfl)
    · exact h.readable l hl
  · intro c hc
    rw [commentLayout, List.append_assoc, Tokenizer.render_append, List.mem_append] at hc
    rw [Tokenizer.render_cons, List.mem_append]
    rcases hc with hc | hc
    · exact (mem_render_of_isBlank hblank hc).imp_right Or.inl
    · simp only [List.cons_append, List.nil_append, Tokenizer.render_cons, List.mem_append] at hc
      rcases hc with hc | hc | hc
      · exact Or.inr (Or.inr (Or.inl ((trimEnd_isPrefix text).subset hc)))
      · exact Or.inr (Or.inl (List.mem_singleton.mp hc))
      · exact (h.chars c hc).imp_right (Or.imp_right Or.inr)

/-- A turn for a token that has a line end behind it, or what is laid out
side by side. -/
theorem Laid.token {f : Formatter} (hf : Between f) {t : Token} (ht : Spelled t)
    {ls out : List Lexeme} {post : List Lexeme}
    (hout : (f.step t (nextText ls)).output =
      f.output ++ lexer.render (f.lead t (nextText ls) ++ .token t :: post))
    (hpost : post = [] ∧ (f.step t (nextText ls)).previous = t.text ∧
        (t.kind ≠ .op → (f.step t (nextText ls)).glue = false) ∨
      post = [.blank '\n'] ∧ (f.step t (nextText ls)).previous = [])
    (h : Laid (f.step t (nextText ls)) ls out) :
    Laid f (.token t :: ls) (f.lead t (nextText ls) ++ .token t :: post ++ out) := by
  have hblank : ∀ l ∈ post, IsBlank l := by
    rcases hpost with ⟨rfl, -⟩ | ⟨rfl, -⟩
    · simp
    · exact fun _ hl ↦ Or.inr (List.mem_singleton.mp hl)
  have hrest : ∃ rest, BlankOrEnd rest ∧ lexer.render (post ++ out) =
      Formatter.behind (f.step t (nextText ls)) ls ++ rest := by
    rcases hpost with ⟨rfl, hprev, -⟩ | ⟨rfl, hprev⟩
    · exact h.behind (by rw [hprev]; exact ht.ne_nil)
    · rw [behind_of_previous hprev]
      exact ⟨_, Or.inr ⟨'\n', _, rfl, rfl⟩, rfl⟩
  have hstops : t.kind ≠ .op → Stops isIdChar (Formatter.behind (f.step t (nextText ls)) ls) := by
    intro hkind
    rcases hpost with ⟨-, hprev, hglue⟩ | ⟨-, hprev⟩
    · exact stops_behind ht hkind hprev (hglue hkind) ls
    · rw [behind_of_previous hprev]
      exact stops_nil _
  have hend : lexer.Ends (.token t) (lexer.render (post ++ out)) ↔
      ¬ Swallows t (Formatter.behind (f.step t (nextText ls)) ls) := by
    obtain ⟨rest, hblankOrEnd, hrender⟩ := hrest
    rw [hrender]
    exact (ht.follows _).trans ((follows_append_blankOrEnd hblankOrEnd).trans
      (follows_iff_not_swallows hstops))
  refine ⟨?_, ?_, ?_, ?_, fun hprev ↦ ?_, ?_, ?_⟩
  · rw [layout, h.output, hout, List.append_assoc, ← Tokenizer.render_append]
  · rw [List.append_assoc, content_append, content_of_isBlank isBlank_lead, List.nil_append,
      List.cons_append]
    show .token t :: content (post ++ out) = .token t :: content ls
    rw [content_append, content_of_isBlank hblank, List.nil_append, h.content_eq]
  · rw [List.append_assoc]
    exact Tokenizer.EndsBut.append (fun l hl ↦ (isBlank_lead l hl).ends)
      ⟨Or.inl trivial, Tokenizer.EndsBut.append (fun l hl ↦ (hblank l hl).ends) h.ends⟩
  · rw [List.append_assoc, Tokenizer.allEnd_append_iff (fun l hl ↦ (isBlank_lead l hl).ends),
      List.cons_append, Tokenizer.AllEnd, hend,
      Tokenizer.allEnd_append_iff (fun l hl ↦ (hblank l hl).ends), h.allEnd, ← not_or]
    rfl
  · rw [Formatter.behind, List.append_assoc]
    split
    · rename_i hside
      obtain ⟨rest, hblankOrEnd, hrender⟩ := hrest
      refine ⟨rest, hblankOrEnd, ?_⟩
      rw [lead_of_sideBySide hf _ hside, List.nil_append, List.cons_append,
        Tokenizer.render_cons, hrender, ← List.append_assoc]
      rfl
    · rename_i hside
      rw [Bool.not_eq_true] at hside
      obtain ⟨c, r, hc, hlead⟩ := lead_of_not_sideBySide hf (nextText ls) hprev hside
      rw [hlead]
      exact ⟨_, Or.inr ⟨c, _, hc, rfl⟩, rfl⟩
  · intro l hl
    simp only [List.mem_append, List.mem_cons] at hl
    rcases hl with (hl | rfl | hl) | hl
    · exact (isBlank_lead l hl).readable
    · exact ⟨_, ht⟩
    · exact (hblank l hl).readable
    · exact h.readable l hl
  · intro c hc
    simp only [Tokenizer.render_append, Tokenizer.render_cons, List.mem_append] at hc ⊢
    rcases hc with (hc | hc | hc) | hc
    · exact (mem_render_of_isBlank isBlank_lead hc).imp_right Or.inl
    · exact Or.inr (Or.inr (Or.inl hc))
    · exact (mem_render_of_isBlank hblank hc).imp_right Or.inl
    · exact (h.chars c hc).imp_right (Or.imp_right Or.inr)

theorem between_comment (f : Formatter) (text : List Char) : Between (f.comment text) :=
  between_newline _

/-- At the end of the file only the line ends. -/
theorem Laid.nil {f : Formatter} (hf : Between f) : Laid f [] f.lineEnd := by
  refine ⟨newline_output hf.trimmed, content_of_isBlank isBlank_lineEnd, ?_, ?_,
    fun hprev ↦ ?_, fun l hl ↦ (isBlank_lineEnd l hl).readable,
    fun c hc ↦ (mem_render_of_isBlank isBlank_lineEnd hc).imp_right Or.inl⟩
  · rw [← List.append_nil f.lineEnd]
    exact Tokenizer.EndsBut.append (fun l hl ↦ (isBlank_lineEnd l hl).ends) trivial
  · rw [← List.append_nil f.lineEnd,
      Tokenizer.allEnd_append_iff fun l hl ↦ (isBlank_lineEnd l hl).ends]
    exact iff_of_true trivial id
  · have hline : f.lineStart = false := by
      rw [Bool.eq_false_iff]
      exact fun hline ↦ hprev (hf.previous.mpr hline)
    rw [lineEnd, hline]
    exact ⟨_, Or.inr ⟨'\n', _, rfl, rfl⟩, rfl⟩

/-- The whole layout, by induction on the lexemes of the source. -/
theorem laid {f : Formatter} (hf : Between f) {ls : List Lexeme}
    (hls : ∀ l ∈ ls, Readable l) : ∃ out, Laid f ls out := by
  induction ls generalizing f with
  | nil => exact ⟨_, Laid.nil hf⟩
  | cons l ls ih =>
      have hrest : ∀ l ∈ ls, Readable l := fun l hl ↦ hls l (List.mem_cons_of_mem _ hl)
      have hfirst : Readable l := hls l List.mem_cons_self
      cases l with
      | blank c =>
          obtain ⟨out, hout⟩ := ih hf hrest
          refine ⟨out, hout.output, hout.content_eq, hout.ends, hout.allEnd, hout.behind,
            hout.readable, fun d hd ↦ (hout.chars d hd).imp_right (Or.imp_right ?_)⟩
          exact List.mem_cons_of_mem c
      | comment text =>
          obtain ⟨out, hout⟩ := ih (between_comment f text) hrest
          exact ⟨_, Laid.comment hf hfirst hout⟩
      | token t =>
          obtain ⟨post, hstep, hbetween, hpost⟩ := step_output hf hfirst.spelled (nextText ls)
          obtain ⟨out, hout⟩ := ih hbetween hrest
          exact ⟨_, Laid.token hf hfirst.spelled hstep hpost hout⟩

end Formatter

end TinyCPlus.Compiler
