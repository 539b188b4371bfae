import TinyCPlus.Compiler.LexerNumbers

/-!
# Where a token ends

A token read off one text is read off another that starts with it exactly
when the text behind it may follow the token.
-/

namespace TinyCPlus.Compiler

open TinyCPlus.Library

/-! ## Literals -/

/-- A literal ends at its quote whatever stands behind it. -/
theorem literalBody_append {quote : Char} {s body : List Char} {count : ℕ}
    (h : literalBody quote s = some (body, count)) (s' : List Char) :
    literalBody quote (body ++ s') = some (body, count) := by
  fun_induction literalBody quote s generalizing body count with
  | case1 => cases h
  | case2 => cases h; simp [literalBody.eq_def]
  | case3 => cases h
  | case4 a b s hhex hq hn ih =>
      obtain ⟨⟨body, n⟩, hbody, heq⟩ := Option.map_eq_some_iff.mp h
      cases heq
      rw [literalBody.eq_def]
      simp [hq, hhex, ih hbody]
  | case5 => cases h
  | case6 e s hno he hq hn ih =>
      obtain ⟨⟨body, n⟩, hbody, heq⟩ := Option.map_eq_some_iff.mp h
      cases heq
      have hx : e ≠ 'x' := by
        rintro rfl
        exact absurd he (by decide)
      rw [literalBody.eq_def]
      simp only [List.cons_append, hq, if_false, hn, if_true]
      split
      · rename_i heq
        injection heq with hex _
        exact absurd hex hx
      · rename_i heq
        injection heq with he' hs
        subst he' hs
        simp [he, ih hbody]
      · rename_i heq
        cases heq
  | case7 => cases h
  | case8 => cases h
  | case9 c s hq hn hb ih =>
      obtain ⟨⟨body, n⟩, hbody, heq⟩ := Option.map_eq_some_iff.mp h
      cases heq
      rw [literalBody.eq_def]
      simp only [List.cons_append, if_neg hq, if_neg hn, if_neg hb, ih hbody, Option.map_some]

theorem literal_append {quote : Char} {s : List Char} {t : Token}
    (h : literal quote s = some t) :
    (t.kind = .char ∨ t.kind = .string) ∧
      ∃ body, t.text = quote :: body ∧ ∀ s', literal quote (body ++ s') = some t := by
  rw [literal] at h
  split at h
  · cases h
  · rename_i body count hbody
    have happend := literalBody_append hbody
    split at h
    · rename_i hquote
      split at h
      · rename_i hcount
        cases h
        exact ⟨Or.inl rfl, body, rfl, fun s' ↦ by
          rw [literal, happend]
          simp only [if_pos hquote, if_pos hcount]⟩
      · cases h
    · rename_i hquote
      cases h
      exact ⟨Or.inr rfl, body, rfl, fun s' ↦ by
        rw [literal, happend]
        simp only [if_neg hquote]⟩

/-! ## Operators -/

/-- The texts of the operator tokens. -/
def opTexts : List (List Char) := ops ++ singleOps.map fun c ↦ [c]

/-- What the lexer recognises at an operator character: an operator of the
table or the start of a comment. -/
def openers : List (List Char) := ["//".toList, "/*".toList] ++ ops

/-- The rest of `o` behind `text`, if `o` is longer and starts with it. -/
def extension (text o : List Char) : Option (List Char) :=
  if text.isPrefixOf o ∧ text.length < o.length then some (o.drop text.length) else none

/-- What must not stand behind an operator. -/
def extensions (text : List Char) : List (List Char) := openers.filterMap (extension text)

theorem mem_extensions {text e : List Char} :
    e ∈ extensions text ↔ e ≠ [] ∧ text ++ e ∈ openers := by
  rw [extensions, List.mem_filterMap]
  constructor
  · rintro ⟨o, ho, hext⟩
    rw [extension] at hext
    split at hext
    · rename_i hpre
      injection hext with hext
      have hsplit : text ++ e = o := by
        rw [← hext]
        exact List.prefix_iff_eq_append.mp (List.isPrefixOf_iff_prefix.mp hpre.1)
      refine ⟨?_, hsplit ▸ ho⟩
      rintro rfl
      have hlen := congrArg List.length hext
      simp only [List.length_drop, List.length_nil] at hlen
      omega
    · cases hext
  · rintro ⟨hne, ho⟩
    have hpos := List.length_pos_of_ne_nil hne
    refine ⟨_, ho, ?_⟩
    rw [extension, if_pos, List.drop_left]
    exact ⟨List.isPrefixOf_iff_prefix.mpr (List.prefix_append _ _), by simpa using hpos⟩

theorem ops_sorted : ops.Pairwise fun a b ↦ b.length ≤ a.length := by decide

theorem operator_self : ∀ text ∈ opTexts, operator text = some text := by decide +kernel

/-- With no longer operator ahead, the lexer sees what it sees at the end of
the source. -/
theorem operator_append {text : List Char} (htext : text ∈ opTexts) {s : List Char}
    (hends : ∀ e ∈ extensions text, ¬ e <+: s) : operator (text ++ s) = some text := by
  have hne : text ≠ [] := by
    rintro rfl
    exact absurd htext (by decide)
  have hsame : ∀ o ∈ ops, o.isPrefixOf (text ++ s) = o.isPrefixOf text := by
    intro o ho
    rw [Bool.eq_iff_iff, List.isPrefixOf_iff_prefix, List.isPrefixOf_iff_prefix]
    constructor
    · intro hpre
      by_contra hnot
      obtain ⟨r, hr⟩ := hpre
      rcases List.append_eq_append_iff.mp hr with ⟨a, ha, -⟩ | ⟨e, he, hs⟩
      · exact hnot ⟨a, ha.symm⟩
      · have hene : e ≠ [] := by
          rintro rfl
          rw [List.append_nil] at he
          exact hnot ⟨[], by rw [he, List.append_nil]⟩
        refine hends e (mem_extensions.mpr ⟨hene, ?_⟩) ⟨r, hs.symm⟩
        rw [← he]
        exact List.mem_append_right _ ho
    · exact fun hpre ↦ hpre.trans (List.prefix_append _ _)
  have hfind : ops.find? (·.isPrefixOf (text ++ s)) = ops.find? (·.isPrefixOf text) :=
    List.find?_congr hsame
  have hself := operator_self text htext
  cases text with
  | nil => exact absurd rfl hne
  | cons c text =>
      unfold operator at hself ⊢
      rw [hfind]
      exact hself

/-- A longer operator ahead is taken instead. -/
theorem operator_ne_of_extension {text e s : List Char} (he : e ∈ extensions text)
    (hops : text ++ e ∈ ops) (hpre : e <+: s) : operator (text ++ s) ≠ some text := by
  intro hop
  obtain ⟨hene, -⟩ := mem_extensions.mp he
  have hlong : (text ++ e).isPrefixOf (text ++ s) = true :=
    List.isPrefixOf_iff_prefix.mpr ((List.prefix_append_right_inj text).mpr hpre)
  unfold operator at hop
  cases hfind : ops.find? (·.isPrefixOf (text ++ s)) with
  | none => exact absurd hlong (by simpa using List.find?_eq_none.mp hfind _ hops)
  | some o =>
      rw [hfind] at hop
      injection hop with hop
      subst hop
      obtain ⟨-, as, bs, hsplit, hbefore⟩ := List.find?_eq_some_iff_append.mp hfind
      have hsorted := ops_sorted
      rw [hsplit] at hops hsorted
      have hlater : ∀ b ∈ bs, b.length ≤ o.length :=
        (List.pairwise_cons.mp (List.pairwise_append.mp hsorted).2.1).1
      have hlength : o.length < (o ++ e).length := by
        rw [List.length_append]
        exact Nat.lt_add_of_pos_right (List.length_pos_of_ne_nil hene)
      rcases List.mem_append.mp hops with hmem | hmem
      · have hno := hbefore _ hmem
        rw [hlong] at hno
        cases hno
      · rcases List.mem_cons.mp hmem with heq | hmem
        · rw [heq] at hlength
          exact lt_irrefl _ hlength
        · exact absurd (hlater _ hmem) (by omega)

/-- The first characters of the operators reach the last branch of the lexer. -/
theorem singleOps_class {c : Char} (hc : c ∈ singleOps) :
    isSpace c = false ∧ isIdStart c = false ∧ c.isDigit = false ∧ c ≠ '"' ∧ c ≠ '\'' := by
  have hall : singleOps.all (fun c ↦ !isSpace c && !isIdStart c && !c.isDigit && c != '"' &&
      c != '\'') = true := by decide
  simpa [and_assoc] using List.all_eq_true.mp hall c hc

theorem opTexts_head : ∀ text ∈ opTexts, text.headD '+' ∈ singleOps := by decide +kernel

theorem opTexts_slash : ∀ text ∈ opTexts, text.headD '+' = '/' →
    text = ['/'] ∨ text = ['/', '='] := by decide +kernel

theorem lexeme_op_append_iff {text : List Char} (htext : text ∈ opTexts) (s : List Char) :
    lexeme (text ++ s) = some (.token ⟨.op, text⟩) ↔ ∀ e ∈ extensions text, ¬ e <+: s := by
  cases text with
  | nil => exact absurd htext (by decide)
  | cons c text =>
      obtain ⟨hspace, hid, hdigit, hdouble, hsingle⟩ :=
        singleOps_class (c := c) (opTexts_head _ htext)
      have hlexeme : lexeme (c :: text ++ s) =
          if c = '/' ∧ (text ++ s).head? = some '/' then
            some (.comment ((c :: text ++ s).takeWhile (· != '\n')))
          else if c = '/' ∧ (text ++ s).head? = some '*' then
            (blockComment 1 (text ++ s).tail).map fun t ↦ .comment ('/' :: '*' :: t)
          else (operator (c :: text ++ s)).map fun op ↦ .token ⟨.op, op⟩ := by
        simp [lexeme, hspace, hid, hdigit, hdouble, hsingle]
      rw [hlexeme]
      constructor
      · intro h e he hpre
        split at h
        · cases h
        · rename_i hline
          split at h
          · cases hcomment : blockComment 1 (text ++ s).tail <;> rw [hcomment] at h <;> cases h
          · rename_i hblock
            obtain ⟨op, hop, heq⟩ := Option.map_eq_some_iff.mp h
            injection heq with heq
            injection heq with _ heq
            subst heq
            obtain ⟨hene, hopener⟩ := mem_extensions.mp he
            obtain ⟨r, rfl⟩ := hpre
            rcases List.mem_append.mp hopener with hcomment | hops
            · simp only [List.mem_cons, List.not_mem_nil, or_false] at hcomment
              have hshort : text = [] ∨ e = [] := by
                rcases hcomment with hcomment | hcomment <;>
                  (have hlen := congrArg List.length hcomment
                   simp only [List.length_append, List.length_cons] at hlen
                   rw [← List.length_eq_zero_iff, ← List.length_eq_zero_iff]
                   have : "//".toList.length = 2 := rfl
                   have : "/*".toList.length = 2 := rfl
                   omega)
              rcases hshort with rfl | rfl
              · rcases hcomment with hcomment | hcomment <;> cases hcomment
                · exact hline ⟨rfl, rfl⟩
                · exact hblock ⟨rfl, rfl⟩
              · exact hene rfl
            · exact operator_ne_of_extension he hops (List.prefix_append _ _) hop
      · intro hends
        have hcomment : ∀ d, (d = '/' ∨ d = '*') →
            ¬ (c = '/' ∧ (text ++ s).head? = some d) := by
          rintro d hd ⟨rfl, hhead⟩
          rcases opTexts_slash _ htext rfl with h | h <;> injection h with _ h <;> subst h
          · cases s with
            | nil => cases hhead
            | cons x s =>
                injection hhead with hhead
                subst hhead
                refine hends [x] (mem_extensions.mpr ⟨by simp, ?_⟩) ⟨s, rfl⟩
                rcases hd with rfl | rfl <;> decide
          · injection hhead with hhead
            subst hhead
            rcases hd with hd | hd <;> cases hd
        rw [if_neg (hcomment '/' (Or.inl rfl)), if_neg (hcomment '*' (Or.inr rfl)),
          operator_append htext hends]
        rfl

/-- Only the operators of the table are read as operators. -/
theorem mem_opTexts_of_operator {s op : List Char} (h : operator s = some op) :
    op ∈ opTexts := by
  unfold operator at h
  split at h
  · rename_i hfind
    cases h
    exact List.mem_append_left _ (List.mem_of_find?_eq_some hfind)
  · split at h
    · split at h
      · rename_i hc
        cases h
        exact List.mem_append_right _ (List.mem_map_of_mem hc)
      · cases h
    · cases h

/-! ## Tokens -/

/-- What may stand behind a token. -/
def Follows (t : Token) (s : List Char) : Prop :=
  match t.kind with
  | .id => Stops isIdChar s
  | .int | .float => NumberFollows t s
  | .op => ∀ e ∈ extensions t.text, ¬ e <+: s
  | _ => True

/-- How the lexer arrives at a token, by its kind. -/
inductive Reads (s : List Char) : Token → Prop where
  | id {c : Char} {r : List Char} (hc : isIdStart c = true) (hs : c :: r <+: s)
      (hall : ∀ x ∈ c :: r, isIdChar x = true) : Reads s ⟨.id, c :: r⟩
  | number {t : Token} {c : Char} {r : List Char} (hc : c.isDigit = true) (ht : t.text = c :: r)
      (hkind : t.kind = .int ∨ t.kind = .float) (h : number s = some t) : Reads s t
  | literal {t : Token} {c : Char} {body : List Char} (hc : c = '"' ∨ c = '\'')
      (hkind : t.kind = .char ∨ t.kind = .string) (ht : t.text = c :: body)
      (h : ∀ s', literal c (body ++ s') = some t) : Reads s t
  | op {text : List Char} (htext : text ∈ opTexts) : Reads s ⟨.op, text⟩

theorem number_kind {s : List Char} {t : Token} (h : number s = some t) :
    t.kind = .int ∨ t.kind = .float := by
  rw [number] at h
  split at h
  · cases h
  · rename_i t' ht'
    split at h
    · cases h
    · cases h
      split at ht'
      · rw [hexadecimal] at ht'
        split at ht'
        · cases ht'
        · cases ht'
          exact Or.inl rfl
      · obtain ⟨power, -, rfl⟩ := Option.map_eq_some_iff.mp ht'
        split
        · exact Or.inl rfl
        · exact Or.inr rfl

theorem reads_of_lexeme {s : List Char} {t : Token} (h : lexeme s = some (.token t)) :
    Reads s t := by
  have hpre := (lexeme_spec h).1
  have hne := (lexeme_spec h).2
  simp only [Lexeme.text] at hpre hne
  revert h
  fun_cases lexeme s with
  | case1 => rintro ⟨⟩
  | case2 => rintro ⟨⟩
  | case3 => rintro ⟨⟩
  | case4 c s =>
      intro h
      obtain ⟨_, -, h⟩ := Option.map_eq_some_iff.mp h
      cases h
  | case5 c s _ _ _ hid =>
      intro h
      injection h with h
      injection h with h
      subst h
      have htake : (c :: s).takeWhile isIdChar = c :: s.takeWhile isIdChar := by
        simp [idStart_isIdChar hid]
      have hall := mem_takeWhile (p := isIdChar) (s := c :: s)
      simp only [htake] at hpre hall ⊢
      exact Reads.id hid hpre hall
  | case6 c s _ _ _ _ hdigit =>
      intro h
      obtain ⟨t', ht, h⟩ := Option.map_eq_some_iff.mp h
      injection h with h
      subst h
      cases htext : t'.text with
      | nil => exact absurd htext hne
      | cons d r =>
          rw [htext] at hpre
          obtain ⟨x, hx⟩ := hpre
          injection hx with hd _
          subst hd
          exact Reads.number hdigit htext (number_kind ht) ht
  | case7 c s _ _ _ _ _ hquote =>
      intro h
      obtain ⟨t', ht, h⟩ := Option.map_eq_some_iff.mp h
      injection h with h
      subst h
      obtain ⟨hkind, body, htext, hbody⟩ := literal_append ht
      exact Reads.literal hquote hkind htext hbody
  | case8 c s _ _ _ _ _ _ =>
      intro h
      obtain ⟨op, hop, h⟩ := Option.map_eq_some_iff.mp h
      injection h with h
      subst h
      exact Reads.op (mem_opTexts_of_operator hop)

/-- A token read off one text is read off another that starts with it exactly
when the text behind it may follow. -/
theorem lexeme_congr {t : Token} {s₀ : List Char}
    (h : lexeme (t.text ++ s₀) = some (.token t)) (s : List Char) :
    lexeme (t.text ++ s) = some (.token t) ↔ Follows t s := by
  cases reads_of_lexeme h with
  | @id c r hc hs hall =>
      simp only [List.cons_append, lexeme_of_idStart hc, Follows, Option.some.injEq,
        Lexeme.token.injEq, Token.mk.injEq, true_and]
      rw [← List.cons_append, takeWhile_append_eq_iff]
      exact ⟨fun h ↦ h.2, fun h ↦ ⟨hall, h⟩⟩
  | @number _ c r hc ht hkind hnumber =>
      have hne : t.text ≠ [] := by simp [ht]
      have hlexeme : lexeme (t.text ++ s) = (number (t.text ++ s)).map .token := by
        rw [ht, List.cons_append, lexeme_of_digit hc]
      have hfollows : Follows t s ↔ NumberFollows t s := by
        rw [Follows]
        rcases hkind with hkind | hkind <;> rw [hkind]
      rw [hfollows, hlexeme, ← number_congr hne hnumber s, Option.map_eq_some_iff]
      constructor
      · rintro ⟨t', ht', heq⟩
        injection heq with heq
        rwa [heq] at ht'
      · exact fun h ↦ ⟨t, h, rfl⟩
  | @literal _ c body hc hkind ht hbody =>
      have hfollows : Follows t s := by
        rw [Follows]
        rcases hkind with hkind | hkind <;> rw [hkind] <;> trivial
      rw [ht, List.cons_append, lexeme_of_quote hc, hbody]
      simp [hfollows]
  | op htext => exact lexeme_op_append_iff htext s

/-! ## Blanks -/

theorem isIdChar_of_isSpace {c : Char} (h : isSpace c = true) : isIdChar c = false := by
  rw [Bool.eq_false_iff]
  intro hid
  have hcode : 33 ≤ c.toNat := by
    rcases isIdChar_iff.mp hid with hid | hid
    · have := idStart_toNat hid
      omega
    · have := toNat_of_isDigit hid
      omega
  rw [isSpace_eq_false hcode] at h
  cases h

theorem openers_not_space {o : List Char} (ho : o ∈ openers) {c : Char} (hc : c ∈ o) :
    isSpace c = false := by
  have hall : openers.all (fun o ↦ o.all fun c ↦ !isSpace c) = true := by decide
  simpa using List.all_eq_true.mp (List.all_eq_true.mp hall o ho) c hc

/-- A blank may follow every token. -/
theorem follows_space {c : Char} (hc : isSpace c = true) (t : Token) (s : List Char) :
    Follows t (c :: s) := by
  have hid := isIdChar_of_isSpace hc
  have hdot : c ≠ '.' := by
    rintro rfl
    exact absurd hc (by decide)
  have hnumber : NumberFollows t (c :: s) := by
    refine ⟨by simpa using hid, fun _ _ hahead ↦ ?_, fun _ _ ↦ by simpa using hdot⟩
    unfold PointAhead at hahead
    split at hahead
    · rename_i heq
      injection heq with heq _
      exact hdot heq
    · exact hahead
  unfold Follows
  split
  · simpa using hid
  · exact hnumber
  · exact hnumber
  · intro e he hpre
    obtain ⟨hne, hopener⟩ := mem_extensions.mp he
    cases e with
    | nil => exact hne rfl
    | cons x e =>
        obtain ⟨r, hr⟩ := hpre
        injection hr with hx _
        subst hx
        rw [openers_not_space hopener (by simp)] at hc
        cases hc
  · trivial

theorem lexeme_space {c : Char} (hc : isSpace c = true) (s : List Char) :
    lexeme (c :: s) = some (.blank c) := by
  simp [lexeme, hc]

/-- The end of the source may follow every token. -/
theorem follows_nil (t : Token) : Follows t [] := by
  have hnumber : NumberFollows t [] :=
    ⟨stops_nil _, fun _ _ h ↦ h, fun _ _ ↦ by simp⟩
  unfold Follows
  split
  · exact stops_nil _
  · exact hnumber
  · exact hnumber
  · exact fun e he hpre ↦ (mem_extensions.mp he).1 (List.prefix_nil.mp hpre)
  · trivial

/-- Only the text up to the first blank matters. -/
theorem follows_append_space {c : Char} (hc : isSpace c = true) (t : Token)
    (s r : List Char) : Follows t (s ++ c :: r) ↔ Follows t s := by
  cases s with
  | nil => exact ⟨fun _ ↦ follows_nil t, fun _ ↦ follows_space hc t r⟩
  | cons x s =>
      have hstops : ∀ p, Stops p (x :: s ++ c :: r) ↔ Stops p (x :: s) := fun p ↦ by simp
      have hahead : PointAhead (x :: s ++ c :: r) ↔ PointAhead (x :: s) := by
        have hdot : c ≠ '.' := by
          rintro rfl
          exact absurd hc (by decide)
        by_cases hx : x = '.'
        · subst hx
          cases s <;> simp [PointAhead, hdot]
        · simp [PointAhead, hx]
      have hnumber : NumberFollows t (x :: s ++ c :: r) ↔ NumberFollows t (x :: s) := by
        rw [NumberFollows, NumberFollows, hstops, hahead]
        rfl
      unfold Follows
      split
      · exact hstops _
      · exact hnumber
      · exact hnumber
      · refine forall₂_congr fun e he ↦ not_congr ⟨fun hpre ↦ ?_, fun hpre ↦ ?_⟩
        · rcases List.prefix_or_prefix_of_prefix hpre (List.prefix_append (x :: s) _) with h | h
          · exact h
          · obtain ⟨e', rfl⟩ := h
            cases e' with
            | nil => simp
            | cons d e' =>
                obtain ⟨r', hr'⟩ := hpre
                rw [List.append_assoc] at hr'
                injection List.append_cancel_left hr' with hd _
                subst hd
                rw [openers_not_space (mem_extensions.mp he).2 (by simp)] at hc
                cases hc
        · exact hpre.trans (List.prefix_append _ _)
      · exact Iff.rfl

/-! ## The ends of a token's text -/

theorem literalBody_getLast? {quote : Char} {s body : List Char} {count : ℕ}
    (h : literalBody quote s = some (body, count)) : body.getLast? = some quote := by
  fun_induction literalBody quote s generalizing body count with
  | case1 => cases h
  | case2 => cases h; rfl
  | case3 => cases h
  | case4 a b s hhex hq hn ih =>
      obtain ⟨⟨body, n⟩, hbody, heq⟩ := Option.map_eq_some_iff.mp h
      cases heq
      simp [List.getLast?_cons, ih hbody]
  | case5 => cases h
  | case6 e s hno he hq hn ih =>
      obtain ⟨⟨body, n⟩, hbody, heq⟩ := Option.map_eq_some_iff.mp h
      cases heq
      simp [List.getLast?_cons, ih hbody]
  | case7 => cases h
  | case8 => cases h
  | case9 c s hq hn hb ih =>
      obtain ⟨⟨body, n⟩, hbody, heq⟩ := Option.map_eq_some_iff.mp h
      cases heq
      simp [List.getLast?_cons, ih hbody]

/-- No character of a number is a blank. -/
theorem number_not_space {s : List Char} {t : Token} (h : number (t.text ++ s) = some t) :
    ∀ c ∈ t.text, isSpace c = false := by
  have hidchar : ∀ c, isIdChar c = true → isSpace c = false := by
    intro c hid
    rw [Bool.eq_false_iff]
    intro hspace
    rw [isIdChar_of_isSpace hspace] at hid
    cases hid
  obtain ⟨hread, -⟩ := number_eq_some_iff.mp h
  split at hread
  · rename_i hhex
    obtain ⟨x, ds, -, rfl, hall, -⟩ := (hexadecimal_eq_some_iff hhex).mp hread
    have hx : (x == 'x' || x == 'X') = true := hhex
    simp only [Bool.or_eq_true, beq_iff_eq] at hx
    intro c hc
    simp only [List.mem_cons] at hc
    rcases hc with rfl | rfl | hc
    · rfl
    · rcases hx with rfl | rfl <;> rfl
    · exact hidchar c (hexDigit_isIdChar (hall c hc))
  · obtain ⟨whole, point, power, rfl, hparts⟩ := decimal_eq_some_iff.mp hread
    have hpoint := isPoint_fraction (point ++ power ++ s)
    rw [hparts.fraction_eq] at hpoint
    have hdigit : ∀ ds : List Char, (∀ d ∈ ds, d.isDigit = true) → ∀ c ∈ ds, isSpace c = false :=
      fun ds hds c hc ↦ hidchar c (digit_isIdChar (hds c hc))
    intro c hc
    simp only [List.mem_append] at hc
    rcases hc with (hc | hc) | hc
    · exact hdigit _ hparts.digits c hc
    · cases hpoint with
      | none => cases hc
      | point hds =>
          rcases List.mem_cons.mp hc with rfl | hc
          · rfl
          · exact hdigit _ hds c hc
    · cases isPower_of_exponent hparts.exponent_eq with
      | none => cases hc
      | power he hsign _ hds =>
          simp only [Bool.or_eq_true, beq_iff_eq] at he
          rcases List.mem_append.mp hc with hc | hc
          · rcases List.mem_cons.mp hc with rfl | hc
            · rcases he with rfl | rfl <;> rfl
            · rcases hsign with rfl | rfl | rfl
              · cases hc
              · rw [List.mem_singleton.mp hc]
                rfl
              · rw [List.mem_singleton.mp hc]
                rfl
          · exact hdigit _ hds c hc

/-- The token is what the lexer reads off its own text. -/
def Spelled (t : Token) : Prop := lexeme t.text = some (.token t)

theorem Spelled.follows {t : Token} (h : Spelled t) (s : List Char) :
    lexeme (t.text ++ s) = some (.token t) ↔ Follows t s := by
  have hself : lexeme (t.text ++ []) = some (.token t) := by rwa [List.append_nil]
  exact lexeme_congr hself s

theorem spelled_of_lexeme {t : Token} {s : List Char}
    (h : lexeme (t.text ++ s) = some (.token t)) : Spelled t := by
  have hself := (lexeme_congr h []).mpr (follows_nil t)
  rwa [List.append_nil] at hself

theorem Spelled.ne_nil {t : Token} (h : Spelled t) : t.text ≠ [] := (lexeme_spec h).2

/-- A token starts with a character that is no blank. -/
theorem Spelled.head_not_space {t : Token} (h : Spelled t) :
    ∀ c ∈ t.text.head?, isSpace c = false := by
  intro c hc
  rw [Bool.eq_false_iff]
  intro hspace
  cases htext : t.text with
  | nil => rw [htext] at hc; cases hc
  | cons d s =>
      rw [htext, List.head?_cons, Option.mem_some_iff] at hc
      rw [Spelled, htext, hc, lexeme_space hspace] at h
      cases h

theorem literal_text {q : Char} {s : List Char} {t : Token} (h : literal q s = some t) :
    ∃ body count, literalBody q s = some (body, count) ∧ t.text = q :: body := by
  rw [literal] at h
  split at h
  · cases h
  · rename_i body count hbody
    refine ⟨body, count, hbody, ?_⟩
    split at h
    · split at h <;> cases h
      rfl
    · cases h
      rfl

/-- A token without blanks, or a literal. -/
theorem Spelled.not_space_or_literal {t : Token} (h : Spelled t) :
    (∀ c ∈ t.text, isSpace c = false) ∨ ∃ q s body count, (q = '"' ∨ q = '\'') ∧
      literalBody q s = some (body, count) ∧ t.text = q :: body := by
  cases reads_of_lexeme h with
  | id _ _ hall =>
      refine Or.inl fun c hmem ↦ ?_
      rw [Bool.eq_false_iff]
      intro hspace
      have hid := hall c hmem
      rw [isIdChar_of_isSpace hspace] at hid
      cases hid
  | number _ _ _ hnumber =>
      exact Or.inl (number_not_space (s := []) (by rwa [List.append_nil]))
  | literal hq _ _ hbody =>
      obtain ⟨body, count, hread, htext⟩ := literal_text (hbody [])
      exact Or.inr ⟨_, _, body, count, hq, hread, htext⟩
  | op htext =>
      refine Or.inl fun c hmem ↦ ?_
      have hall : opTexts.all (fun o ↦ o.all fun c ↦ !isSpace c) = true := by decide
      simpa using List.all_eq_true.mp (List.all_eq_true.mp hall _ htext) c hmem

theorem Spelled.getLast_not_space {t : Token} (h : Spelled t) :
    ∀ c ∈ t.text.getLast?, isSpace c = false := by
  intro c hc
  rcases h.not_space_or_literal with hall | ⟨q, s, body, count, hq, hread, htext⟩
  · exact hall c (List.mem_of_getLast? hc)
  · rw [htext, List.getLast?_cons, literalBody_getLast? hread] at hc
    injection hc with hc
    rw [← hc]
    rcases hq with rfl | rfl <;> rfl

theorem literalBody_no_newline {quote : Char} (hquote : quote = '"' ∨ quote = '\'')
    {s body : List Char} {count : ℕ} (h : literalBody quote s = some (body, count)) :
    '\n' ∉ body := by
  have hne : '\n' ≠ quote := by
    rcases hquote with rfl | rfl <;> decide
  have hhex : ∀ c, isHexDigit c = true → '\n' ≠ c := by
    rintro c hc rfl
    cases hc
  have hescape : ∀ c ∈ escapes, '\n' ≠ c := by
    rintro c hc rfl
    exact absurd hc (by decide)
  fun_induction literalBody quote s generalizing body count with
  | case1 => cases h
  | case2 =>
      cases h
      simpa using hne
  | case3 => cases h
  | case4 a b s hab hq hn ih =>
      obtain ⟨⟨body, n⟩, hbody, heq⟩ := Option.map_eq_some_iff.mp h
      cases heq
      simp [ih hbody, hhex a hab.1, hhex b hab.2]
  | case5 => cases h
  | case6 e s hno he hq hn ih =>
      obtain ⟨⟨body, n⟩, hbody, heq⟩ := Option.map_eq_some_iff.mp h
      cases heq
      simp [ih hbody, hescape _ he]
  | case7 => cases h
  | case8 => cases h
  | case9 c s hq hn hb ih =>
      obtain ⟨⟨body, n⟩, hbody, heq⟩ := Option.map_eq_some_iff.mp h
      cases heq
      have hc : '\n' ≠ c := fun hc ↦ hn (Or.inl hc.symm)
      simp [ih hbody, hc]

theorem Spelled.no_newline {t : Token} (h : Spelled t) : '\n' ∉ t.text := by
  rcases h.not_space_or_literal with hall | ⟨q, s, body, count, hq, hread, htext⟩
  · intro hmem
    cases hall _ hmem
  · rw [htext, List.mem_cons, not_or]
    refine ⟨?_, literalBody_no_newline hq hread⟩
    rcases hq with rfl | rfl <;> decide

end TinyCPlus.Compiler
