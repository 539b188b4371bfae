import TinyCPlus.Compiler.FormatterMerges

/-!
# The walk over the source

The loop of the formatter finds the lexemes of the source again: the positions
of the tokens tell it where the gaps between them end, and the gaps hold blanks
and comments.
-/

namespace TinyCPlus.Compiler

open TinyCPlus.Library

/-! ## Positions -/

theorem Loc.advance_append (l : Loc) (a b : List Char) :
    l.advance (a ++ b) = (l.advance a).advance b := by
  fun_induction Loc.advance l a with
  | case1 => rfl
  | case2 l s ih =>
      rw [List.cons_append, Loc.advance, ih]
  | case3 l c s hc ih =>
      rw [List.cons_append, Loc.advance]
      · exact ih
      · exact hc

theorem Loc.advance_of_not_mem {l : Loc} {s : List Char} (h : '\n' ∉ s) :
    l.advance s = ⟨l.line, l.col + s.length⟩ := by
  induction s generalizing l with
  | nil => rfl
  | cons c s ih =>
      rw [List.mem_cons, not_or] at h
      rw [Loc.advance, ih h.2, List.length_cons, Nat.add_assoc, Nat.add_comm 1]
      exact fun hc ↦ h.1 hc.symm

/-- Positions grow along the source. -/
theorem Loc.advance_grows (l : Loc) {s : List Char} (hs : s ≠ []) :
    l.line < (l.advance s).line ∨
      (l.line = (l.advance s).line ∧ l.col < (l.advance s).col) := by
  fun_induction Loc.advance l s with
  | case1 => exact absurd rfl hs
  | case2 l s ih =>
      left
      cases s with
      | nil => simp [Loc.advance]
      | cons c s =>
          have hnext := ih (by simp)
          dsimp only at hnext
          omega
  | case3 l c s hc ih =>
      cases s with
      | nil => simp [Loc.advance]
      | cons d s =>
          have hnext := ih (by simp)
          dsimp only at hnext
          omega

/-- The walk stops at the position of the next token. -/
theorem gapLength_eq (l : Loc) (gap s : List Char) :
    gapLength (l.advance gap) l (gap ++ s) = gap.length := by
  induction gap generalizing l with
  | nil =>
      cases s with
      | nil => rfl
      | cons c s => simp [gapLength, Loc.advance]
  | cons c gap ih =>
      have hcond : l.line < (l.advance (c :: gap)).line ∨ l.col < (l.advance (c :: gap)).col := by
        rcases l.advance_grows (s := c :: gap) (by simp) with h | ⟨-, h⟩
        · exact Or.inl h
        · exact Or.inr h
      have hstep : l.advance (c :: gap) = (l.advance [c]).advance gap :=
        l.advance_append [c] gap
      rw [List.cons_append, gapLength, if_pos (by simpa using hcond), hstep, ih, List.length_cons]

namespace Formatter

/-! ## Comments in a gap -/

theorem blockText_eq {level n : ℕ} {s t : List Char} (h : blockComment level s = some t)
    (hn : t.length ≤ n) : blockText level n s = t := by
  fun_induction blockComment level s generalizing n t with
  | case1 =>
      cases h
      rw [blockText]
  | case2 => cases h
  | case3 level s ih =>
      obtain ⟨t, ht, rfl⟩ := Option.map_eq_some_iff.mp h
      cases n with
      | zero => cases hn
      | succ n =>
          rw [blockText, ih ht]
          simp only [List.length_cons] at hn
          omega
  | case4 level s ih =>
      obtain ⟨t, ht, rfl⟩ := Option.map_eq_some_iff.mp h
      cases n with
      | zero => cases hn
      | succ n =>
          rw [blockText, ih ht]
          simp only [List.length_cons] at hn
          omega
  | case5 level c s hopen hclose ih =>
      obtain ⟨t, ht, rfl⟩ := Option.map_eq_some_iff.mp h
      cases n with
      | zero => cases hn
      | succ n =>
          rw [blockText, ih ht]
          · simpa using hn
          · exact hopen
          · exact hclose

theorem takeWhile_take_of_append {p : Char → Bool} {a s : List Char}
    (h : (a ++ s).takeWhile p = a) {n : ℕ} (hn : a.length ≤ n) :
    ((a ++ s).take n).takeWhile p = a := by
  obtain ⟨hall, hstop⟩ := takeWhile_append_eq_iff.mp h
  rw [List.take_append, List.take_of_length_le hn]
  refine takeWhile_append_eq_iff.mpr ⟨hall, ?_⟩
  cases s with
  | nil => simp [stops_nil]
  | cons c s =>
      cases n - a.length with
      | zero => exact stops_nil p
      | succ m => simpa using hstop

/-- The formatter finds a comment where the lexer does. -/
theorem commentText_eq {n : ℕ} {s text : List Char}
    (h : lexeme (text ++ s) = some (.comment text)) (hn : text.length ≤ n) :
    commentText n (text ++ s) = some text := by
  rcases comment_cases h with ⟨body, rfl, -, htext⟩ | ⟨r, t, rfl, hs, ht⟩
  · exact congrArg some (takeWhile_take_of_append htext.symm hn)
  · injection hs with _ hs
    injection hs with _ hs
    subst hs
    have hlength : t.length ≤ n - 2 := by
      simp only [List.length_cons] at hn
      omega
    show some ('/' :: '*' :: blockText 1 (n - 2) (t ++ s)) = some ('/' :: '*' :: t)
    have happend : blockComment 1 (t ++ s) = some t := ht
    rw [blockText_eq happend hlength]

theorem commentText_of_blank {n : ℕ} {c : Char} (hc : isSpace c = true) (s : List Char) :
    commentText n (c :: s) = none := by
  have hslash : c ≠ '/' := by
    rintro rfl
    cases hc
  unfold commentText
  split
  · rename_i heq
    injection heq with heq _
    exact absurd heq hslash
  · rename_i heq
    injection heq with heq _
    exact absurd heq hslash
  · rfl

theorem isSpace_of_lexeme {s : List Char} {c : Char} (h : lexeme s = some (.blank c)) :
    isSpace c = true := by
  revert h
  fun_cases lexeme s with
  | case2 c s hspace =>
      rintro ⟨⟩
      exact hspace
  | _ => simp

theorem commentsFuel_blank {fuel n : ℕ} {f : Formatter} {c : Char} (hc : isSpace c = true)
    (s : List Char) : commentsFuel (fuel + 1) f (n + 1) (c :: s) = commentsFuel fuel f n s := by
  rw [commentsFuel, commentText_of_blank hc]

theorem commentsFuel_comment {fuel n : ℕ} {f : Formatter} {text s : List Char}
    (hne : text ≠ []) (hn : text.length ≤ n) (h : commentText n (text ++ s) = some text) :
    commentsFuel (fuel + 1) f n (text ++ s) =
      commentsFuel fuel (f.comment text) (n - text.length) s := by
  cases text with
  | nil => exact absurd rfl hne
  | cons c r =>
      cases n with
      | zero => cases hn
      | succ n =>
          rw [List.cons_append] at h ⊢
          rw [commentsFuel, h]
          dsimp only
          rw [← List.cons_append, List.drop_left]

/-- A stretch of blanks and comments. -/
def IsGap (ls : List Lexeme) : Prop := ∀ l ∈ ls, ¬ IsToken l

/-- The comments of a gap are laid out one after the other. -/
theorem commentsFuel_eq {f : Formatter} {gap ls : List Lexeme} {fuel : ℕ}
    (hgap : IsGap gap) (hall : lexer.AllEnd (gap ++ ls))
    (hfuel : (lexer.render gap).length ≤ fuel) :
    commentsFuel fuel f (lexer.render gap).length (lexer.render (gap ++ ls)) = layout f gap := by
  induction gap generalizing f fuel with
  | nil => cases fuel <;> rfl
  | cons l gap ih =>
      obtain ⟨hend, hall⟩ := hall
      have hgap' : IsGap gap := fun x hx ↦ hgap x (List.mem_cons_of_mem _ hx)
      rw [Tokenizer.render_cons, List.length_append] at hfuel ⊢
      rw [List.cons_append, Tokenizer.render_cons]
      cases l with
      | token t => exact absurd trivial (hgap _ List.mem_cons_self)
      | blank c =>
          have hlength : (lexer.text (.blank c)).length = 1 := rfl
          have hc : isSpace c = true := isSpace_of_lexeme (s := c :: _) hend
          cases fuel with
          | zero => omega
          | succ fuel =>
              have hbound : (lexer.render gap).length ≤ fuel := by omega
              rw [hlength, Nat.add_comm 1]
              exact (commentsFuel_blank hc _).trans (ih hgap' hall hbound)
      | comment text =>
          have hne : text ≠ [] := (lexeme_spec (l := .comment text) hend).2
          have hpos := List.length_pos_of_ne_nil hne
          have hlength : (lexer.text (.comment text)).length = text.length := rfl
          cases fuel with
          | zero => omega
          | succ fuel =>
              have hbound : text.length ≤
                  (lexer.text (.comment text)).length + (lexer.render gap).length := by
                omega
              have hcomment := commentText_eq hend hbound
              refine (commentsFuel_comment hne (by omega) hcomment).trans ?_
              rw [hlength, Nat.add_sub_cancel_left]
              exact ih hgap' hall (by omega)

/-! ## The loop over the tokens -/

theorem layout_append_gap {f : Formatter} {gap : List Lexeme} (hgap : IsGap gap)
    (ls : List Lexeme) : layout f (gap ++ ls) = layout (layout f gap) ls := by
  induction gap generalizing f with
  | nil => rfl
  | cons l gap ih =>
      have hgap' : IsGap gap := fun x hx ↦ hgap x (List.mem_cons_of_mem _ hx)
      cases l with
      | blank c => exact ih hgap'
      | comment text => exact ih hgap'
      | token t => exact absurd trivial (hgap _ List.mem_cons_self)

theorem tokensAt_head (l : Loc) (ls : List Lexeme) :
    ∃ t target rest, tokensAt l ls = (t, target) :: rest ∧ t.text = nextText ls := by
  induction ls generalizing l with
  | nil => exact ⟨_, _, _, rfl, rfl⟩
  | cons x ls ih =>
      cases x with
      | blank c => exact ih _
      | comment text => exact ih _
      | token t => exact ⟨_, _, _, rfl, rfl⟩

theorem isGap_append {gap : List Lexeme} {l : Lexeme} (hgap : IsGap gap) (hl : ¬ IsToken l) :
    IsGap (gap ++ [l]) := by
  intro x hx
  rcases List.mem_append.mp hx with hx | hx
  · exact hgap x hx
  · rwa [List.mem_singleton.mp hx]

theorem allEnd_of_append {xs ys : List Lexeme} (h : lexer.AllEnd (xs ++ ys)) :
    lexer.AllEnd ys := by
  induction xs with
  | nil => exact h
  | cons x xs ih => exact ih h.2

/-- The loop over the tokens and the comments at the end of the file lay out
the lexemes of the source, by induction on the lexemes behind a gap. -/
theorem formatLoop_eq {f f' : Formatter} {gap ls : List Lexeme} {l : Loc} {rest : List Char}
    (hgap : IsGap gap) (hall : lexer.AllEnd (gap ++ ls))
    (h : formatLoop f (lexer.render (gap ++ ls)) l (tokensAt (l.advance (lexer.render gap)) ls) =
      some (f', rest)) :
    f'.comments rest.length rest = layout f (gap ++ ls) := by
  induction ls generalizing f gap l with
  | nil =>
      rw [tokensAt, formatLoop] at h
      · injection h with h
        injection h with hf hrest
        have hcomments := commentsFuel_eq (f := f) hgap hall le_rfl
        rw [← hf, ← hrest]
        rw [List.append_nil] at hcomments ⊢
        exact hcomments
      · simp
  | cons x ls ih =>
      have hsnoc : gap ++ x :: ls = gap ++ [x] ++ ls := by simp
      cases x with
      | blank c =>
          rw [hsnoc] at h hall ⊢
          refine ih (l := l) (isGap_append hgap id) hall ?_
          rwa [Tokenizer.render_append lexer gap, Loc.advance_append]
      | comment text =>
          rw [hsnoc] at h hall ⊢
          refine ih (l := l) (isGap_append hgap id) hall ?_
          rwa [Tokenizer.render_append lexer gap, Loc.advance_append, Tokenizer.render_cons,
            Tokenizer.render_nil, List.append_nil]
      | token t =>
          have hrest := allEnd_of_append hall
          have hspelled : Spelled t := spelled_of_lexeme hrest.1
          obtain ⟨t', target', rest', htokens, hnext⟩ :=
            tokensAt_head ((l.advance (lexer.render gap)).advance t.text) ls
          have hsource : lexer.render (gap ++ .token t :: ls) =
              lexer.render gap ++ (t.text ++ lexer.render ls) := by
            rw [Tokenizer.render_append]
            rfl
          rw [tokensAt, htokens, formatLoop, hsource, gapLength_eq] at h
          split at h
          · cases h
          · rw [List.take_left, ← hsource, comments, commentsFuel_eq hgap hall le_rfl, hsource,
              ← List.append_assoc, ← List.length_append, List.drop_left,
              ← Loc.advance_of_not_mem hspelled.no_newline, ← htokens, hnext] at h
            rw [layout_append_gap hgap, layout]
            have hnil : IsGap [] := fun x hx ↦ by cases hx
            exact ih hnil hrest.2 h

end Formatter

end TinyCPlus.Compiler
