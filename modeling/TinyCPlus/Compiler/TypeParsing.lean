import TinyCPlus.Compiler.CaseLabels
import TinyCPlus.Compiler.TypeTexts

/-!
# Parsing the text of a type

`parse_type` reads the tokens of a type and stops in front of what follows.  A closing bracket of
a list of types is split off a `>>`, the one of a function type is not.
-/

namespace TinyCPlus.Compiler

open TypeExpr.tokens (tokensAll)

/-! ## The tokens in front of the parser -/

theorem joinClosers_cons {t : Token} (h : t ≠ closer) (ts : List Token) :
    joinClosers (t :: ts) = t :: joinClosers ts := by
  cases ts with
  | nil => rfl
  | cons u ts => rw [joinClosers, if_neg fun hboth ↦ h hboth.1]

theorem joinClosers_append {xs : List Token} (h : closer ∉ xs) (ts : List Token) :
    joinClosers (xs ++ ts) = xs ++ joinClosers ts := by
  induction xs with
  | nil => rfl
  | cons x xs ih =>
      have hx : x ≠ closer := fun heq ↦ h (by simp [heq])
      rw [List.cons_append, joinClosers_cons hx, ih fun hmem ↦ h (List.mem_cons_of_mem _ hmem),
        List.cons_append]

/-- What the parser has before it: the tokens as the lexer sees them, or behind the first half
of a `>>`. -/
inductive Ahead : List Token → List Token → Prop where
  | whole (ts : List Token) : Ahead (joinClosers ts) ts
  | split (ts : List Token) : Ahead (closer :: joinClosers ts) (closer :: ts)

theorem Ahead.eq {stream ts : List Token} {t : Token} (h : Ahead stream (t :: ts))
    (ht : t ≠ closer) : stream = t :: joinClosers ts := by
  cases h with
  | whole => exact joinClosers_cons ht ts
  | split => exact absurd rfl ht

theorem Ahead.peek {stream ts : List Token} {t : Token} (h : Ahead stream (t :: ts)) :
    peek stream = t ∨ (t = closer ∧ peek stream = opToken ">>") := by
  cases h with
  | whole =>
      cases ts with
      | nil => exact .inl rfl
      | cons u ts =>
          rw [joinClosers]
          split
          · rename_i hclosers
            exact .inr ⟨hclosers.1, rfl⟩
          · exact .inl rfl
  | split => exact .inl rfl

theorem Ahead.isAt_eq_false {stream ts : List Token} {t : Token} (h : Ahead stream (t :: ts))
    {s : String} (ht : t.text ≠ s.toList) (hs : s.toList ≠ ">>".toList) :
    isAt s stream = false := by
  rw [isAt, beq_eq_false_iff_ne]
  rcases h.peek with hpeek | ⟨-, hpeek⟩
  · rwa [hpeek]
  · rw [hpeek]
    exact fun heq ↦ hs heq.symm

/-- A bracket that ends a list of types. -/
theorem Ahead.closeItems {stream ts : List Token} (h : Ahead stream (closer :: ts)) :
    ∃ stream', closeItems ">" stream = some stream' ∧ Ahead stream' ts := by
  cases h with
  | whole =>
      cases ts with
      | nil => exact ⟨[], rfl, .whole []⟩
      | cons u ts =>
          by_cases hu : u = closer
          · subst hu
            exact ⟨_, rfl, .split ts⟩
          · refine ⟨joinClosers (u :: ts), ?_, .whole (u :: ts)⟩
            rw [joinClosers, if_neg fun hboth ↦ hu hboth.2]
            rfl
  | split => exact ⟨joinClosers ts, rfl, .whole ts⟩

theorem closeItems_paren (stream : List Token) :
    closeItems ")" (opToken ")" :: stream) = some stream := rfl

/-- What may follow a type. -/
def typeFollowers : List Token := ⟨.eof, []⟩ :: [",", ")", ">", "(", "*", "["].map opToken

theorem typeFollowers_text : ∀ c ∈ typeFollowers, c.text ≠ ".".toList ∧ c.text ≠ "<".toList := by
  decide

/-! ## Names -/

theorem word_ne {w : List Char} (h : lexeme w = some (.token ⟨.id, w⟩)) {s : List Char}
    (hs : s.head?.any isIdStart = false) : w ≠ s := by
  rintro rfl
  obtain ⟨c, r, htext, hc, -⟩ := Spelled.word (t := ⟨.id, w⟩) h rfl
  rw [show w = c :: r from htext, List.head?_cons, Option.any_some, hc] at hs
  cases hs

theorem nameTokens_ne_closer {name : List Char} : closer ∉ nameTokens name := by
  unfold nameTokens
  split
  · simp
  · intro h
    rcases List.mem_cons.mp h with h | h
    · cases h
    · obtain ⟨w, -, hw⟩ := List.mem_flatMap.mp h
      simp [closer, opToken] at hw

theorem dotted_words (ws : List (List Char)) {stream : List Token}
    (hstop : isAt "." stream = false) (name : List Char) :
    ∀ fuel > ws.length, dotted fuel name
        ((ws.flatMap fun w ↦ [opToken ".", ⟨.id, w⟩]) ++ stream) =
      some (name ++ ws.flatMap fun w ↦ '.' :: w, stream) := by
  induction ws generalizing name with
  | nil =>
      intro fuel hfuel
      obtain ⟨fuel, rfl⟩ : ∃ f, fuel = f + 1 := ⟨fuel - 1, by simp at hfuel; omega⟩
      simp [dotted, eat, hstop]
  | cons w ws ih =>
      intro fuel hfuel
      rw [List.length_cons] at hfuel
      obtain ⟨fuel, rfl⟩ : ∃ f, fuel = f + 1 := ⟨fuel - 1, by omega⟩
      have hrest := ih (name ++ '.' :: w) fuel (by omega)
      change dotted fuel (name ++ '.' :: w) ((ws.flatMap fun w ↦ [opToken ".", ⟨.id, w⟩]) ++
        stream) = _
      rw [hrest]
      simp

theorem intercalate_dot (w : List Char) (ws : List (List Char)) :
    ['.'].intercalate (w :: ws) = w ++ ws.flatMap fun w ↦ '.' :: w := by
  induction ws generalizing w with
  | nil => simp
  | cons u ws ih => simp [List.intercalate_cons_cons, ih]

/-- A name is read up to what follows it. -/
theorem typeHead_name {name : List Char} (h : TypeExpr.IsTypeName name) {stream : List Token}
    (hstop : isAt "." stream = false) :
    isAt "const" (nameTokens name ++ stream) = false ∧
      ∃ N, ∀ fuel ≥ N, ∀ depth,
        typeHead fuel depth (nameTokens name ++ stream) = nameTail fuel depth name stream := by
  have hname : ['.'].intercalate (name.splitOn '.') = name := List.intercalate_splitOn '.'
  obtain ⟨hwords, hconst⟩ := h
  unfold nameTokens
  cases hsplit : name.splitOn '.' with
  | nil => exact absurd hsplit (List.splitOn_ne_nil _ _)
  | cons w ws =>
      rw [hsplit] at hname hwords hconst
      rw [intercalate_dot] at hname
      have hw := hwords w List.mem_cons_self
      refine ⟨?_, ws.length + 1, fun fuel hfuel depth ↦ ?_⟩
      · rw [isAt, beq_eq_false_iff_ne]
        simpa [peek] using hconst
      · have hparen : eat "(" (⟨.id, w⟩ :: ((ws.flatMap fun w ↦ [opToken ".", ⟨.id, w⟩]) ++
            stream)) = none := by
          have hne : isAt "(" (⟨.id, w⟩ :: ((ws.flatMap fun w ↦ [opToken ".", ⟨.id, w⟩]) ++
              stream)) = false := by
            rw [isAt, beq_eq_false_iff_ne]
            exact word_ne hw (by decide)
          simp [eat, hne]
        have hdotted := dotted_words ws hstop w fuel (by omega)
        rw [typeHead]
        simp only [List.cons_append, hparen]
        change (dotted fuel w
          ((ws.flatMap fun w ↦ [opToken ".", ⟨.id, w⟩]) ++ stream)).bind _ = _
        rw [hdotted, hname]
        rfl

/-! ## One type -/

/-- With enough fuel `run` gives `v`. -/
def Settles {α : Type} (run : ℕ → α) (v : α) : Prop := ∃ N, ∀ fuel ≥ N, run fuel = v

/-- The parser reads the type up to the token `c` behind it, where it looks for `*` and `[`. -/
def ReadsType (t : TypeExpr) (depth : ℕ) (c : Token) (r : List Token) : Prop :=
  ∃ stream, Ahead stream (c :: r) ∧ ∃ k N, ∀ fuel ≥ N,
    parseType (fuel + k) depth (joinClosers (t.tokens ++ c :: r)) = typeSuffix fuel t stream

/-- The parser stops with a diagnostic. -/
def Stuck (t : TypeExpr) (depth : ℕ) (c : Token) (r : List Token) : Prop :=
  Settles (fun fuel ↦ parseType fuel depth (joinClosers (t.tokens ++ c :: r))) none

/-- A type that is followed by no `*` and no `[` is complete. -/
theorem typeSuffix_stop {stream r : List Token} {c : Token} (h : Ahead stream (c :: r))
    (hc : c ∈ typeFollowers) (hstar : c ≠ opToken "*") (hbracket : c ≠ opToken "[") (fuel : ℕ)
    (t : TypeExpr) : typeSuffix (fuel + 1) t stream = some (t, stream) := by
  have hall : ∀ c ∈ typeFollowers, c ≠ opToken "*" → c ≠ opToken "[" →
      c.text ≠ "*".toList ∧ c.text ≠ "[".toList := by decide
  obtain ⟨hs, hb⟩ := hall c hc hstar hbracket
  simp [typeSuffix, h.isAt_eq_false hs (by decide), h.isAt_eq_false hb (by decide)]

theorem ReadsType.settles {t : TypeExpr} {depth : ℕ} {c : Token} {r : List Token}
    (h : ReadsType t depth c r) (hc : c ∈ typeFollowers) (hstar : c ≠ opToken "*")
    (hbracket : c ≠ opToken "[") :
    ∃ stream, Ahead stream (c :: r) ∧ Settles
      (fun fuel ↦ parseType fuel depth (joinClosers (t.tokens ++ c :: r))) (some (t, stream)) := by
  obtain ⟨stream, hahead, k, N, hparse⟩ := h
  refine ⟨stream, hahead, N + k + 1, fun fuel hfuel ↦ ?_⟩
  obtain ⟨f, rfl⟩ : ∃ f, fuel = f + 1 + k := ⟨fuel - k - 1, by omega⟩
  dsimp only
  rw [hparse (f + 1) (by omega), typeSuffix_stop hahead hc hstar hbracket]

/-! ## A list of types -/

/-- The ends of a list of types. -/
def IsClose (close : String) (c : Token) : Prop :=
  (close = ")" ∧ c = opToken ")") ∨ (close = ">" ∧ c = closer)

theorem IsClose.follower {close : String} {c : Token} (h : IsClose close c) :
    c ∈ typeFollowers ∧ c ≠ opToken "*" ∧ c ≠ opToken "[" ∧ c.text ≠ ",".toList := by
  rcases h with ⟨-, rfl⟩ | ⟨-, rfl⟩
  · decide
  · decide

section Items

variable {depth : ℕ} {close : String} {c : Token} {r : List Token}

theorem eat_comma (h : IsClose close c) {stream : List Token} (hahead : Ahead stream (c :: r)) :
    eat "," stream = none := by
  have hcomma := hahead.isAt_eq_false (s := ",") h.follower.2.2.2 (by decide)
  simp [eat, hcomma]

/-- A list of types that can all be read is read up to its end. -/
theorem items_reads (hclose : IsClose close c) {ts : List TypeExpr} (hne : ts ≠ [])
    (hreads : ∀ t ∈ ts, ∀ r, ReadsType t depth (opToken ",") r)
    (hlast : ∀ t ∈ ts.getLast?, ReadsType t depth c r) :
    ∃ stream, Ahead stream (c :: r) ∧ Settles
      (fun fuel ↦ typeItems fuel depth close (joinClosers (tokensAll ts ++ c :: r)))
      ((closeItems close stream).map fun rest ↦ (ts, rest)) := by
  induction ts with
  | nil => exact absurd rfl hne
  | cons t ts ih =>
      cases ts with
      | nil =>
          obtain ⟨hc, hstar, hbracket, -⟩ := hclose.follower
          obtain ⟨stream, hahead, N, hparse⟩ := (hlast t rfl).settles hc hstar hbracket
          refine ⟨stream, hahead, N + 1, fun fuel hfuel ↦ ?_⟩
          obtain ⟨f, rfl⟩ : ∃ f, fuel = f + 1 := ⟨fuel - 1, by omega⟩
          have hparse := hparse f (by omega)
          dsimp only at hparse ⊢
          rw [typeItems, tokensAll, hparse]
          simp only [Option.bind_eq_bind, Option.bind_some, eat_comma hclose hahead]
      | cons u us =>
          obtain ⟨stream, hahead, M, hitems⟩ := ih (by simp)
            (fun t ht ↦ hreads t (List.mem_cons_of_mem _ ht)) (by simpa using hlast)
          obtain ⟨stream', hahead', N, hparse⟩ := (hreads t List.mem_cons_self
            (tokensAll (u :: us) ++ c :: r)).settles (by decide) (by decide) (by decide)
          refine ⟨stream, hahead, max M N + 1, fun fuel hfuel ↦ ?_⟩
          obtain ⟨f, rfl⟩ : ∃ f, fuel = f + 1 := ⟨fuel - 1, by omega⟩
          have hparse := hparse f (by omega)
          have hitems := hitems f (by omega)
          have hcomma : eat "," stream' = some (joinClosers (tokensAll (u :: us) ++ c :: r)) := by
            rw [hahead'.eq (by decide)]
            rfl
          dsimp only at hparse hitems ⊢
          rw [typeItems, tokensAll, List.append_assoc, List.cons_append, hparse]
          · simp only [Option.bind_eq_bind, Option.bind_some, hcomma, hitems]
            cases closeItems close stream <;> rfl
          · simp

theorem items_stuck_head {t : TypeExpr} {ts : List TypeExpr}
    (h : ∀ c ∈ typeFollowers, ∀ r, Stuck t depth c r) (hclose : IsClose close c) :
    Settles (fun fuel ↦ typeItems fuel depth close
      (joinClosers (tokensAll (t :: ts) ++ c :: r))) none := by
  have hfirst : ∃ c' ∈ typeFollowers, ∃ r',
      tokensAll (t :: ts) ++ c :: r = t.tokens ++ c' :: r' := by
    cases ts with
    | nil => exact ⟨c, hclose.follower.1, r, rfl⟩
    | cons u us =>
        refine ⟨opToken ",", by decide, tokensAll (u :: us) ++ c :: r, ?_⟩
        rw [tokensAll, List.append_assoc, List.cons_append]
        simp
  obtain ⟨c', hc', r', heq⟩ := hfirst
  obtain ⟨N, hparse⟩ := h c' hc' r'
  refine ⟨N + 1, fun fuel hfuel ↦ ?_⟩
  obtain ⟨f, rfl⟩ : ∃ f, fuel = f + 1 := ⟨fuel - 1, by omega⟩
  have hparse := hparse f (by omega)
  dsimp only at hparse ⊢
  rw [typeItems, heq, hparse]
  rfl

/-- A list of types stops at the first one that cannot be read. -/
theorem items_stuck (hclose : IsClose close c) {ts : List TypeExpr}
    (h : ∀ t ∈ ts, (∀ r, ReadsType t depth (opToken ",") r) ∨
      ∀ c ∈ typeFollowers, ∀ r, Stuck t depth c r)
    (hstuck : (∃ t ∈ ts, ∀ c ∈ typeFollowers, ∀ r, Stuck t depth c r) ∨
      ∃ t ∈ ts.getLast?, Stuck t depth c r) :
    Settles (fun fuel ↦ typeItems fuel depth close (joinClosers (tokensAll ts ++ c :: r)))
      none := by
  induction ts with
  | nil => simp at hstuck
  | cons t ts ih =>
      by_cases hhead : ∀ c ∈ typeFollowers, ∀ r, Stuck t depth c r
      · exact items_stuck_head hhead hclose
      · have hreads := (h t List.mem_cons_self).resolve_right hhead
        cases ts with
        | nil =>
            have hlast : Stuck t depth c r := by simpa [hhead] using hstuck
            obtain ⟨N, hparse⟩ := hlast
            refine ⟨N + 1, fun fuel hfuel ↦ ?_⟩
            obtain ⟨f, rfl⟩ : ∃ f, fuel = f + 1 := ⟨fuel - 1, by omega⟩
            have hparse := hparse f (by omega)
            dsimp only at hparse ⊢
            rw [typeItems, tokensAll, hparse]
            rfl
        | cons u us =>
            obtain ⟨M, hitems⟩ := ih (fun t ht ↦ h t (List.mem_cons_of_mem _ ht)) (by
              rcases hstuck with ⟨v, hv, hstuck⟩ | hlast
              · rcases List.mem_cons.mp hv with rfl | hv
                · exact absurd hstuck hhead
                · exact .inl ⟨v, hv, hstuck⟩
              · exact .inr (by simpa using hlast))
            obtain ⟨stream', hahead', N, hparse⟩ := (hreads
              (tokensAll (u :: us) ++ c :: r)).settles (by decide) (by decide) (by decide)
            refine ⟨max M N + 1, fun fuel hfuel ↦ ?_⟩
            obtain ⟨f, rfl⟩ : ∃ f, fuel = f + 1 := ⟨fuel - 1, by omega⟩
            have hparse := hparse f (by omega)
            have hitems := hitems f (by omega)
            have hcomma : eat "," stream' =
                some (joinClosers (tokensAll (u :: us) ++ c :: r)) := by
              rw [hahead'.eq (by decide)]
              rfl
            dsimp only at hparse hitems ⊢
            rw [typeItems, tokensAll, List.append_assoc, List.cons_append, hparse]
            · simp only [Option.bind_eq_bind, Option.bind_some, hcomma, hitems]
              rfl
            · simp

end Items

/-! ## Each form of a type -/

section Forms

variable {depth : ℕ} {c : Token} {r : List Token}

/-- A call of `parse_type` that reads the head of a type. -/
theorem ReadsType.of_head {t : TypeExpr} {stream : List Token} (hdepth : depth < nestingLimit)
    (hahead : Ahead stream (c :: r))
    (hconst : isAt "const" (joinClosers (t.tokens ++ c :: r)) = false)
    (h : Settles (fun fuel ↦ typeHead fuel (depth + 1) (joinClosers (t.tokens ++ c :: r)))
      (some (t, stream))) : ReadsType t depth c r := by
  obtain ⟨N, h⟩ := h
  refine ⟨stream, hahead, 1, N, fun fuel hfuel ↦ ?_⟩
  have hhead := h fuel hfuel
  dsimp only at hhead
  rw [parseType_succ, enter, if_pos (by omega), Option.bind_some, hconst]
  simp [hhead]

theorem Stuck.of_head {t : TypeExpr} (hdepth : depth < nestingLimit)
    (hconst : isAt "const" (joinClosers (t.tokens ++ c :: r)) = false)
    (h : Settles (fun fuel ↦ typeHead fuel (depth + 1) (joinClosers (t.tokens ++ c :: r)))
      none) : Stuck t depth c r := by
  obtain ⟨N, h⟩ := h
  refine ⟨N + 1, fun fuel hfuel ↦ ?_⟩
  obtain ⟨f, rfl⟩ : ∃ f, fuel = f + 1 := ⟨fuel - 1, by omega⟩
  have hhead := h f (by omega)
  dsimp only at hhead ⊢
  rw [parseType_succ, enter, if_pos (by omega), Option.bind_some, hconst]
  simp [hhead]

theorem reads_named {name : List Char} (hname : TypeExpr.IsTypeName name)
    (hdepth : depth < nestingLimit) (hc : c ∈ typeFollowers) :
    ReadsType (.named name) depth c r := by
  have hahead := Ahead.whole (c :: r)
  obtain ⟨hpoint, hangle⟩ := typeFollowers_text c hc
  obtain ⟨hconst, N, hhead⟩ :=
    typeHead_name hname (hahead.isAt_eq_false (s := ".") hpoint (by decide))
  have htokens : joinClosers ((TypeExpr.named name).tokens ++ c :: r) =
      nameTokens name ++ joinClosers (c :: r) := joinClosers_append nameTokens_ne_closer _
  refine ReadsType.of_head hdepth hahead (by rwa [htokens]) ⟨N, fun fuel hfuel ↦ ?_⟩
  have hstop := hahead.isAt_eq_false (s := "<") hangle (by decide)
  dsimp only
  rw [htokens, hhead fuel hfuel, nameTail]
  simp [eat, hstop]

/-- A `*` behind a type. -/
theorem reads_pointer {t : TypeExpr} (h : ∀ r, ReadsType t depth (opToken "*") r) :
    ReadsType (.pointer t) depth c r := by
  obtain ⟨stream, hahead, k, N, hparse⟩ := h (c :: r)
  refine ⟨_, .whole (c :: r), k + 1, N, fun fuel hfuel ↦ ?_⟩
  have hparse := hparse (fuel + 1) (by omega)
  rw [TypeExpr.tokens, List.append_assoc, List.cons_append, List.nil_append,
    show fuel + (k + 1) = fuel + 1 + k by omega, hparse, hahead.eq (by decide), typeSuffix]
  rfl

theorem stuck_pointer {t : TypeExpr} (h : ∀ r, Stuck t depth (opToken "*") r) :
    Stuck (.pointer t) depth c r := by
  obtain ⟨N, hparse⟩ := h (c :: r)
  refine ⟨N, fun fuel hfuel ↦ ?_⟩
  have hparse := hparse fuel hfuel
  dsimp only at hparse ⊢
  rw [TypeExpr.tokens, List.append_assoc, List.cons_append, List.nil_append, hparse]

/-- The length of an array as it is spelled. -/
theorem strtoull_toDigits {n : ℕ} (hpos : 0 < n) (hlt : n < 2 ^ 64) :
    strtoull (Nat.toDigits 10 n) = some n := by
  obtain ⟨d, ds, hdigits, -, hzero⟩ := CaseLabels.toDigits_ten_eq n
  have hd : d ≠ '0' := fun heq ↦ by
    have hn := hzero heq
    omega
  have hall : ∀ x ∈ d :: ds, x.isDigit = true := fun x hx ↦
    TypeExpr.isDigit_toDigits n x (hdigits ▸ hx)
  have htake : (d :: ds).takeWhile Char.isDigit = d :: ds := List.takeWhile_eq_self_iff.mpr hall
  have hfold : ∀ (xs : List Char) (m : ℕ), (∀ x ∈ xs, x.isDigit = true) →
      xs.foldl (fun n c ↦ n * 10 + digitValue c) m = Nat.ofDigitChars 10 xs m := by
    intro xs
    induction xs with
    | nil => intro m _; simp
    | cons x xs ih =>
        intro m hxs
        have hx := hxs x List.mem_cons_self
        rw [List.foldl_cons, ih _ fun y hy ↦ hxs y (List.mem_cons_of_mem _ hy),
          Nat.ofDigitChars_cons, digitValue, if_pos hx, Nat.mul_comm]
        rfl
  have hvalue : Nat.ofDigitChars 10 (d :: ds) 0 = n := by
    rw [← hdigits, Nat.ofDigitChars_ten_toDigits]
  rw [hdigits]
  unfold strtoull
  split
  · rename_i heq
    injection heq with heq _
    exact absurd heq hd
  · simp only [htake, hfold _ _ hall, hvalue, if_pos hlt]

theorem reads_array {t : TypeExpr} {count : ℕ} (hpos : 0 < count) (hle : count ≤ 10000000)
    (h : ∀ r, ReadsType t depth (opToken "[") r) : ReadsType (.array t count) depth c r := by
  obtain ⟨stream, hahead, k, N, hparse⟩ :=
    h (⟨.int, Nat.toDigits 10 count⟩ :: opToken "]" :: c :: r)
  refine ⟨_, .whole (c :: r), k + 1, N, fun fuel hfuel ↦ ?_⟩
  have hparse := hparse (fuel + 1) (by omega)
  have hrest : joinClosers (⟨.int, Nat.toDigits 10 count⟩ :: opToken "]" :: c :: r) =
      ⟨.int, Nat.toDigits 10 count⟩ :: opToken "]" :: joinClosers (c :: r) := by
    rw [joinClosers_cons (fun heq ↦ by cases heq), joinClosers_cons (by decide)]
  have hlength : arrayLength (⟨.int, Nat.toDigits 10 count⟩ :: opToken "]" ::
      joinClosers (c :: r)) = some (count, opToken "]" :: joinClosers (c :: r)) := by
    simp [arrayLength, take, peek, strtoull_toDigits hpos (by omega)]
    omega
  rw [TypeExpr.tokens, List.append_assoc, List.cons_append, List.cons_append, List.cons_append,
    List.nil_append, show fuel + (k + 1) = fuel + 1 + k by omega, hparse, hahead.eq (by decide),
    hrest, typeSuffix]
  change (arrayLength (⟨.int, Nat.toDigits 10 count⟩ :: opToken "]" ::
      joinClosers (c :: r))).bind _ = _
  rw [hlength]
  rfl

theorem stuck_array {t : TypeExpr} {count : ℕ} (h : ∀ r, Stuck t depth (opToken "[") r) :
    Stuck (.array t count) depth c r := by
  obtain ⟨N, hparse⟩ := h (⟨.int, Nat.toDigits 10 count⟩ :: opToken "]" :: c :: r)
  refine ⟨N, fun fuel hfuel ↦ ?_⟩
  have hparse := hparse fuel hfuel
  dsimp only at hparse ⊢
  rw [TypeExpr.tokens, List.append_assoc, List.cons_append, List.cons_append, List.cons_append,
    List.nil_append, hparse]

/-- The head of a type that starts with a name and `<`. -/
theorem typeHead_angle {name : List Char} (hname : TypeExpr.IsTypeName name) (ts : List Token) :
    joinClosers (nameTokens name ++ opToken "<" :: ts) =
        nameTokens name ++ opToken "<" :: joinClosers ts ∧
      isAt "const" (joinClosers (nameTokens name ++ opToken "<" :: ts)) = false ∧
      ∃ N, ∀ fuel ≥ N, ∀ depth,
        typeHead fuel depth (joinClosers (nameTokens name ++ opToken "<" :: ts)) =
          if name = "func".toList ∨ name = "closure".toList then
            functionTail fuel depth (name = "closure".toList) (joinClosers ts)
          else genericTail fuel depth name (joinClosers ts) := by
  have htokens : joinClosers (nameTokens name ++ opToken "<" :: ts) =
      nameTokens name ++ opToken "<" :: joinClosers ts := by
    rw [joinClosers_append nameTokens_ne_closer, joinClosers_cons (by decide)]
  obtain ⟨hconst, N, hhead⟩ :=
    typeHead_name hname (show isAt "." (opToken "<" :: joinClosers ts) = false from rfl)
  refine ⟨htokens, by rwa [htokens], N, fun fuel hfuel depth ↦ ?_⟩
  rw [htokens, hhead fuel hfuel]
  rfl

/-- The type can be read in front of everything that may follow it. -/
def ReadsAll (t : TypeExpr) (depth : ℕ) : Prop :=
  ∀ c ∈ typeFollowers, (t.isFunction = true → c ≠ closer) → ∀ r, ReadsType t depth c r

def StuckAll (t : TypeExpr) (depth : ℕ) : Prop := ∀ c ∈ typeFollowers, ∀ r, Stuck t depth c r

/-- What the parser does with a type. -/
structure Parsed (t : TypeExpr) (depth : ℕ) : Prop where
  reads : t.Closes → ReadsAll t depth
  stuck_closer : t.isFunction = true → ∀ r, Stuck t depth closer r
  stuck : ¬t.Closes → StuckAll t depth

theorem ReadsAll.comma {t : TypeExpr} (h : ReadsAll t depth) (r : List Token) :
    ReadsType t depth (opToken ",") r :=
  h _ (by decide) (fun _ ↦ by decide) r

section Lists

variable {items : List TypeExpr} (h : ∀ t ∈ items, Parsed t depth)
include h

theorem parsed_items_paren (hne : items ≠ []) (hcloses : ∀ t ∈ items, t.Closes) (r : List Token) :
    Settles (fun fuel ↦ typeItems fuel depth ")"
      (joinClosers (tokensAll items ++ opToken ")" :: r))) (some (items, joinClosers r)) := by
  obtain ⟨stream, hahead, hitems⟩ := items_reads (c := opToken ")") (r := r) (.inl ⟨rfl, rfl⟩) hne
    (fun t ht ↦ ((h t ht).reads (hcloses t ht)).comma) fun t ht ↦
      (h t (List.mem_of_mem_getLast? ht)).reads (hcloses t (List.mem_of_mem_getLast? ht)) _
        (by decide) (fun _ ↦ by decide) r
  rwa [hahead.eq (by decide), closeItems_paren] at hitems

theorem parsed_items_angle (hne : items ≠ []) (hcloses : ∀ t ∈ items, t.Closes)
    (hlast : ∀ t ∈ items.getLast?, t.isFunction = false) (c : Token) (r : List Token) :
    ∃ stream, Ahead stream (c :: r) ∧ Settles (fun fuel ↦ typeItems fuel depth ">"
      (joinClosers (tokensAll items ++ closer :: c :: r))) (some (items, stream)) := by
  obtain ⟨stream, hahead, hitems⟩ := items_reads (c := closer) (r := c :: r) (.inr ⟨rfl, rfl⟩) hne
    (fun t ht ↦ ((h t ht).reads (hcloses t ht)).comma) fun t ht ↦
      (h t (List.mem_of_mem_getLast? ht)).reads (hcloses t (List.mem_of_mem_getLast? ht)) _
        (by decide) (fun hfunction ↦ by rw [hlast t ht] at hfunction; cases hfunction) _
  obtain ⟨stream', hclose, hahead'⟩ := hahead.closeItems
  rw [hclose] at hitems
  exact ⟨stream', hahead', hitems⟩

theorem parsed_items_stuck {close : String} {c : Token} (hclose : IsClose close c)
    (hstuck : (∃ t ∈ items, ¬t.Closes) ∨
      (c = closer ∧ ∃ t ∈ items.getLast?, t.isFunction = true)) (r : List Token) :
    Settles (fun fuel ↦ typeItems fuel depth close
      (joinClosers (tokensAll items ++ c :: r))) none := by
  refine items_stuck hclose (fun t ht ↦ ?_) ?_
  · by_cases hcloses : t.Closes
    · exact .inl ((h t ht).reads hcloses).comma
    · exact .inr ((h t ht).stuck hcloses)
  · rcases hstuck with ⟨t, ht, hcloses⟩ | ⟨rfl, t, ht, hfunction⟩
    · exact .inl ⟨t, ht, (h t ht).stuck hcloses⟩
    · exact .inr ⟨t, ht, (h t (List.mem_of_mem_getLast? ht)).stuck_closer hfunction r⟩

end Lists

/-- A type closes when its parts do and no function type stands in front of its `>`. -/
theorem closes_iff {t : TypeExpr} :
    t.Closes ↔ ¬t.FunctionLast ∧ ∀ u ∈ t.parts, u.Closes := by
  constructor
  · exact fun h ↦ ⟨h t t.mem_completed_self, fun u hu v hv ↦
      h v (TypeExpr.mem_completed.mpr (.inr ⟨u, hu, hv⟩))⟩
  · rintro ⟨hself, hparts⟩ v hv
    rcases TypeExpr.mem_completed.mp hv with rfl | ⟨u, hu, hv⟩
    · exact hself
    · exact hparts u hu v hv

theorem parsed_tuple {items : List TypeExpr} (hne : items ≠ []) (hdepth : depth < nestingLimit)
    (h : ∀ t ∈ items, Parsed t (depth + 1)) : Parsed (.tuple items) depth := by
  have htokens : ∀ c r, joinClosers ((TypeExpr.tuple items).tokens ++ c :: r) =
      opToken "(" :: joinClosers (tokensAll items ++ opToken ")" :: c :: r) := by
    intro c r
    rw [TypeExpr.tokens, List.cons_append, List.cons_append, List.append_assoc, List.cons_append,
      List.nil_append, joinClosers_cons (by decide)]
  refine ⟨fun hcloses c hc _ r ↦ ?_, (by rintro ⟨⟩), fun hcloses c hc r ↦ ?_⟩
  · obtain ⟨-, hparts⟩ := closes_iff.mp hcloses
    obtain ⟨N, hitems⟩ := parsed_items_paren h hne hparts (c :: r)
    refine .of_head hdepth (.whole (c :: r)) (by rw [htokens]; rfl) ⟨N, fun fuel hfuel ↦ ?_⟩
    have hitems := hitems fuel hfuel
    dsimp only at hitems ⊢
    rw [htokens, typeHead]
    change (typeItems fuel (depth + 1) ")" (joinClosers _)).map _ = _
    rw [hitems]
    rfl
  · have hstuck : ∃ t ∈ items, ¬t.Closes := by
      by_contra hall
      push Not at hall
      exact hcloses (closes_iff.mpr ⟨id, hall⟩)
    obtain ⟨N, hitems⟩ := parsed_items_stuck h (.inl ⟨rfl, rfl⟩) (.inl hstuck) (c :: r)
    refine .of_head hdepth (by rw [htokens]; rfl) ⟨N, fun fuel hfuel ↦ ?_⟩
    have hitems := hitems fuel hfuel
    dsimp only at hitems ⊢
    rw [htokens, typeHead]
    change (typeItems fuel (depth + 1) ")" (joinClosers _)).map _ = _
    rw [hitems]
    rfl

/-- A generic type or a slice. -/
theorem parsed_angle {t : TypeExpr} {name : List Char} {items : List TypeExpr}
    (hname : TypeExpr.IsTypeName name)
    (hbuiltin : ¬(name = "func".toList ∨ name = "closure".toList))
    (htokens : t.tokens = nameTokens name ++ opToken "<" :: tokensAll items ++ [closer])
    (htype : ∀ fuel stream, (∀ ts, typeItems fuel (depth + 1) ">" ts = some (items, stream) →
      genericTail fuel (depth + 1) name ts = some (t, stream)) ∧
      ∀ ts, typeItems fuel (depth + 1) ">" ts = none → genericTail fuel (depth + 1) name ts = none)
    (hlast : t.FunctionLast ↔ ∃ u ∈ items.getLast?, u.isFunction = true)
    (hparts : t.parts = items) (hfunction : t.isFunction = false)
    (hne : items ≠ []) (hdepth : depth < nestingLimit)
    (h : ∀ t ∈ items, Parsed t (depth + 1)) : Parsed t depth := by
  have htokens : ∀ c r, t.tokens ++ c :: r =
      nameTokens name ++ opToken "<" :: (tokensAll items ++ closer :: c :: r) := by
    intro c r
    rw [htokens]
    simp
  refine ⟨fun hcloses c hc _ r ↦ ?_, fun hf ↦ ?_, fun hcloses c hc r ↦ ?_⟩
  · obtain ⟨hself, hall⟩ := closes_iff.mp hcloses
    rw [hparts] at hall
    obtain ⟨stream, hahead, M, hitems⟩ := parsed_items_angle h hne hall (fun u hu ↦ by
      rw [Bool.eq_false_iff]
      exact fun hf ↦ hself (hlast.mpr ⟨u, hu, hf⟩)) c r
    obtain ⟨-, hconst, N, hhead⟩ := typeHead_angle hname (tokensAll items ++ closer :: c :: r)
    rw [← htokens] at hconst hhead
    refine .of_head hdepth hahead hconst ⟨max M N, fun fuel hfuel ↦ ?_⟩
    dsimp only
    rw [hhead fuel (by omega), if_neg hbuiltin]
    exact (htype fuel stream).1 _ (hitems fuel (by omega))
  · rw [hfunction] at hf
    cases hf
  · have hstuck : (∃ u ∈ items, ¬u.Closes) ∨
        (closer = closer ∧ ∃ u ∈ items.getLast?, u.isFunction = true) := by
      by_contra hall
      push Not at hall
      apply hcloses
      rw [closes_iff, hlast, hparts]
      exact ⟨fun ⟨u, hu, hf⟩ ↦ hall.2 rfl u hu hf, hall.1⟩
    obtain ⟨M, hitems⟩ := parsed_items_stuck h (.inr ⟨rfl, rfl⟩) hstuck (c :: r)
    obtain ⟨-, hconst, N, hhead⟩ := typeHead_angle hname (tokensAll items ++ closer :: c :: r)
    rw [← htokens] at hconst hhead
    refine .of_head hdepth hconst ⟨max M N, fun fuel hfuel ↦ ?_⟩
    dsimp only
    rw [hhead fuel (by omega), if_neg hbuiltin]
    exact (htype fuel []).2 _ (hitems fuel (by omega))

/-- The parameters of a function type, with the `)` behind them. -/
theorem parsed_params {params : List TypeExpr}
    (htypes : params = [] ∨ TypeTokens (tokensAll params))
    (h : ∀ t ∈ params, Parsed t depth) (r : List Token) :
    ((∀ t ∈ params, t.Closes) → Settles (fun fuel ↦
      paramsTail fuel depth (joinClosers (tokensAll params ++ opToken ")" :: r)))
      (some (params, joinClosers r))) ∧
    ((∃ t ∈ params, ¬t.Closes) → Settles (fun fuel ↦
      paramsTail fuel depth (joinClosers (tokensAll params ++ opToken ")" :: r))) none) := by
  simp only [paramsTail]
  cases params with
  | nil =>
      have hjoined : joinClosers (tokensAll [] ++ opToken ")" :: r) =
          opToken ")" :: joinClosers r := joinClosers_cons (by decide) r
      rw [hjoined]
      exact ⟨fun _ ↦ ⟨0, fun _ _ ↦ rfl⟩, by rintro ⟨t, ht, -⟩; cases ht⟩
  | cons t ts =>
      have htypes := htypes.resolve_left (by simp)
      have heat : eat ")" (joinClosers (tokensAll (t :: ts) ++ opToken ")" :: r)) = none := by
        obtain ⟨u, hu, hhead⟩ := htypes.head
        obtain ⟨us, hus⟩ : ∃ us, tokensAll (t :: ts) = u :: us := by
          cases htokens : tokensAll (t :: ts) with
          | nil => exact absurd htokens htypes.ne_nil
          | cons v vs =>
              rw [htokens] at hu
              exact ⟨vs, by rw [Option.some.inj hu]⟩
        have hne : u ≠ closer ∧ u.text ≠ ")".toList := by
          rcases hhead with hid | rfl
          · obtain ⟨d, s, htext, hd, -⟩ :=
              (htypes.token u (by simp [hus])).spelled.word hid
            refine ⟨?_, ?_⟩
            · rintro rfl
              cases hid
            · rw [htext]
              intro heq
              injection heq with heq
              subst heq
              cases hd
          · decide
        rw [hus, List.cons_append, joinClosers_cons hne.1, eat, isAt]
        simpa [Compiler.peek] using hne.2
      rw [heat]
      refine ⟨fun hcloses ↦ parsed_items_paren h (by simp) hcloses r, fun hstuck ↦ ?_⟩
      exact parsed_items_stuck h (.inl ⟨rfl, rfl⟩) (.inl hstuck) r

/-- The `>` of a function type, which is not split off a `>>`. -/
theorem expect_closer (c : Token) (r : List Token) :
    expect ">" (joinClosers (closer :: c :: r)) =
      if c = closer then none else some (joinClosers (c :: r)) := by
  rw [joinClosers]
  by_cases hc : c = closer
  · rw [if_pos ⟨rfl, hc⟩, if_pos hc]
    rfl
  · rw [if_neg fun hboth ↦ hc hboth.2, if_neg hc]
    rfl

theorem functionTail_eq {fuel : ℕ} {closure : Bool} {result : TypeExpr} {params : List TypeExpr}
    {ts ts' rest : List Token}
    (hresult : parseType fuel depth ts = some (result, opToken "(" :: ts'))
    (hparams : paramsTail fuel depth ts' = some (params, rest)) :
    functionTail fuel depth closure ts =
      (expect ">" rest).map fun rest ↦ (.function closure params result, rest) := by
  rw [functionTail, hresult]
  change (paramsTail fuel depth ts').bind _ = _
  rw [hparams]
  change (expect ">" rest).bind _ = _
  cases expect ">" rest <;> rfl

theorem functionTail_none {fuel : ℕ} {closure : Bool} {result : TypeExpr} {ts ts' : List Token}
    (hresult : parseType fuel depth ts = some (result, opToken "(" :: ts'))
    (hparams : paramsTail fuel depth ts' = none) :
    functionTail fuel depth closure ts = none := by
  rw [functionTail, hresult]
  change (paramsTail fuel depth ts').bind _ = _
  rw [hparams]
  rfl

section Function

variable (closure : Bool) {params : List TypeExpr} {result : TypeExpr}
  (htypes : params = [] ∨ TypeTokens (tokensAll params)) (hresult : Parsed result depth)
  (h : ∀ t ∈ params, Parsed t depth)
include htypes hresult h

theorem functionTail_reads (hcloses : result.Closes) (hall : ∀ t ∈ params, t.Closes) (c : Token)
    (r : List Token) :
    Settles (fun fuel ↦ functionTail fuel depth closure (joinClosers (result.tokens ++
        opToken "(" :: (tokensAll params ++ opToken ")" :: closer :: c :: r))))
      (if c = closer then none
        else some (.function closure params result, joinClosers (c :: r))) := by
  obtain ⟨stream, hahead, M, hparse⟩ := (hresult.reads hcloses (opToken "(") (by decide)
    (fun _ ↦ by decide) (tokensAll params ++ opToken ")" :: closer :: c :: r)).settles (by decide)
      (by decide) (by decide)
  obtain ⟨N, hparams⟩ := (parsed_params htypes h (closer :: c :: r)).1 hall
  rw [hahead.eq (by decide)] at hparse
  refine ⟨max M N, fun fuel hfuel ↦ ?_⟩
  dsimp only
  rw [functionTail_eq (hparse fuel (by omega)) (hparams fuel (by omega)), expect_closer]
  split <;> rfl

theorem functionTail_stuck (hstuck : ¬(result.Closes ∧ ∀ t ∈ params, t.Closes)) (r : List Token) :
    Settles (fun fuel ↦ functionTail fuel depth closure (joinClosers (result.tokens ++
      opToken "(" :: (tokensAll params ++ opToken ")" :: r)))) none := by
  by_cases hcloses : result.Closes
  · obtain ⟨stream, hahead, M, hparse⟩ := (hresult.reads hcloses (opToken "(") (by decide)
      (fun _ ↦ by decide) (tokensAll params ++ opToken ")" :: r)).settles (by decide) (by decide)
        (by decide)
    have hparam : ∃ t ∈ params, ¬t.Closes := by
      by_contra hall
      push Not at hall
      exact hstuck ⟨hcloses, hall⟩
    obtain ⟨N, hparams⟩ := (parsed_params htypes h r).2 hparam
    rw [hahead.eq (by decide)] at hparse
    refine ⟨max M N, fun fuel hfuel ↦ ?_⟩
    exact functionTail_none (hparse fuel (by omega)) (hparams fuel (by omega))
  · obtain ⟨N, hparse⟩ := hresult.stuck hcloses (opToken "(") (by decide)
      (tokensAll params ++ opToken ")" :: r)
    refine ⟨N, fun fuel hfuel ↦ ?_⟩
    have hparse := hparse fuel hfuel
    dsimp only at hparse ⊢
    rw [functionTail, hparse]
    rfl

end Function

theorem parsed_function {closure : Bool} {params : List TypeExpr} {result : TypeExpr}
    (htypes : params = [] ∨ TypeTokens (tokensAll params)) (hdepth : depth < nestingLimit)
    (hresult : Parsed result (depth + 1)) (h : ∀ t ∈ params, Parsed t (depth + 1)) :
    Parsed (.function closure params result) depth := by
  obtain ⟨name, hname, hclosure, hword, hwords⟩ : ∃ name : List Char, TypeExpr.IsTypeName name ∧
      decide (name = "closure".toList) = closure ∧
        (name = "func".toList ∨ name = "closure".toList) ∧
          [wordToken (if closure then "closure" else "func")] = nameTokens name := by
    cases closure
    · exact ⟨"func".toList, ⟨by decide, by decide⟩, by decide, .inl rfl, by decide⟩
    · exact ⟨"closure".toList, ⟨by decide, by decide⟩, by decide, .inr rfl, by decide⟩
  have htokens : ∀ c r, (TypeExpr.function closure params result).tokens ++ c :: r =
      nameTokens name ++ opToken "<" :: (result.tokens ++ opToken "(" ::
        (tokensAll params ++ opToken ")" :: closer :: c :: r)) := by
    intro c r
    rw [← hwords]
    simp [TypeExpr.tokens, closer]
  -- the head of the type is what stands behind `func<` or `closure<`
  have hhead : ∀ c r, isAt "const" (joinClosers
      ((TypeExpr.function closure params result).tokens ++ c :: r)) = false ∧
      ∀ v, Settles (fun fuel ↦ functionTail fuel (depth + 1) closure (joinClosers (result.tokens ++
          opToken "(" :: (tokensAll params ++ opToken ")" :: closer :: c :: r)))) v →
        Settles (fun fuel ↦ typeHead fuel (depth + 1) (joinClosers
          ((TypeExpr.function closure params result).tokens ++ c :: r))) v := by
    intro c r
    rw [htokens]
    obtain ⟨-, hconst, N, hangle⟩ := typeHead_angle hname (result.tokens ++ opToken "(" ::
      (tokensAll params ++ opToken ")" :: closer :: c :: r))
    refine ⟨hconst, fun v hv ↦ ?_⟩
    obtain ⟨M, htail⟩ := hv
    refine ⟨max M N, fun fuel hfuel ↦ ?_⟩
    dsimp only
    rw [hangle fuel (by omega), if_pos hword, hclosure]
    exact htail fuel (by omega)
  have hparts : (TypeExpr.function closure params result).Closes ↔
      result.Closes ∧ ∀ t ∈ params, t.Closes := by
    rw [closes_iff]
    simp [TypeExpr.FunctionLast, TypeExpr.parts]
  refine ⟨fun hcloses c hc hclose r ↦ ?_, fun _ r ↦ ?_, fun hcloses c hc r ↦ ?_⟩
  · obtain ⟨hr, hp⟩ := hparts.mp hcloses
    have htail := functionTail_reads closure htypes hresult h hr hp c r
    rw [if_neg (hclose rfl)] at htail
    exact .of_head hdepth (.whole (c :: r)) (hhead c r).1 ((hhead c r).2 _ htail)
  · refine .of_head hdepth (hhead closer r).1 ((hhead closer r).2 _ ?_)
    by_cases hall : result.Closes ∧ ∀ t ∈ params, t.Closes
    · have htail := functionTail_reads closure htypes hresult h hall.1 hall.2 closer r
      rwa [if_pos rfl] at htail
    · exact functionTail_stuck closure htypes hresult h hall _
  · refine .of_head hdepth (hhead c r).1 ((hhead c r).2 _ ?_)
    exact functionTail_stuck closure htypes hresult h (fun hall ↦ hcloses (hparts.mpr hall)) _

end Forms

/-! ## Every type -/

namespace TypeExpr

theorem nesting_le_nestingAll {ts : List TypeExpr} {t : TypeExpr} (h : t ∈ ts) :
    t.nesting ≤ nesting.nestingAll ts := by
  induction ts with
  | nil => cases h
  | cons u us ih =>
      rw [nesting.nestingAll]
      rcases List.mem_cons.mp h with rfl | h
      · exact le_max_left _ _
      · exact (ih h).trans (le_max_right _ _)

/-- What `parse_type` does with a type within the nesting limit. -/
theorem parsed {t : TypeExpr} (hformed : ∀ u ∈ t.completed, u.Formed) {depth : ℕ}
    (hdepth : depth + t.nesting ≤ nestingLimit) : Parsed t depth := by
  induction t using parts_induction generalizing depth with
  | _ t ih =>
      obtain ⟨hself, hparts⟩ := formed_parts hformed
      have ih : ∀ u ∈ t.parts, ∀ {depth : ℕ}, depth + u.nesting ≤ nestingLimit → Parsed u depth :=
        fun u hu ↦ ih u hu (hparts u hu)
      have hitems : ∀ ts : List TypeExpr, (∀ u ∈ ts, u ∈ t.parts) →
          depth + 1 + nesting.nestingAll ts ≤ nestingLimit → ∀ u ∈ ts, Parsed u (depth + 1) := by
        intro ts hts hle u hu
        have hu' := nesting_le_nestingAll hu
        exact ih u (hts u hu) (by omega)
      cases t with
      | named name =>
          rw [nesting] at hdepth
          refine ⟨fun _ c hc _ r ↦ reads_named hself (by omega) hc, (by rintro ⟨⟩), fun h ↦ ?_⟩
          exact absurd (closes_iff.mpr ⟨id, by simp [parts]⟩) h
      | generic name items =>
          rw [nesting] at hdepth
          obtain ⟨hname, hbuiltin, hne⟩ := hself
          simp only [builtinGenerics, List.map_cons, List.map_nil, List.mem_cons,
            List.not_mem_nil, or_false, not_or] at hbuiltin
          refine parsed_angle hname (not_or.mpr ⟨hbuiltin.1, hbuiltin.2.1⟩) rfl
            (fun fuel stream ↦ ⟨fun ts h ↦ ?_, fun ts h ↦ ?_⟩) Iff.rfl rfl rfl hne (by omega)
            (hitems items (fun u hu ↦ hu) (by omega))
          · rw [genericTail, h]
            exact if_neg hbuiltin.2.2
          · rw [genericTail, h]
            rfl
      | function closure params result =>
          rw [nesting] at hdepth
          have hle := le_max_left result.nesting (nesting.nestingAll params)
          have hle' := le_max_right result.nesting (nesting.nestingAll params)
          refine parsed_function ?_ (by omega) (ih result List.mem_cons_self (by omega))
            (hitems params (fun u hu ↦ List.mem_cons_of_mem _ hu) (by omega))
          cases params with
          | nil => exact .inl rfl
          | cons p ps =>
              exact .inr (typeTokens_all (by simp) fun u hu ↦
                typeTokens (hparts u (List.mem_cons_of_mem _ hu)))
      | tuple items =>
          rw [nesting] at hdepth
          exact parsed_tuple hself (by omega) (hitems items (fun u hu ↦ hu) (by omega))
      | slice t =>
          rw [nesting] at hdepth
          have hname : IsTypeName "Slice".toList := ⟨by decide, by decide⟩
          refine parsed_angle (t := .slice t) hname (by decide) rfl
            (fun fuel stream ↦ ⟨fun ts h ↦ ?_, fun ts h ↦ ?_⟩) (by simp [FunctionLast, parts])
            rfl rfl (by simp [parts]) (by omega) (hitems [t] (fun u hu ↦ hu) ?_)
          · rw [genericTail, h]
            rfl
          · rw [genericTail, h]
            rfl
          · simp only [nesting.nestingAll]
            omega
      | const t => exact hself.elim
      | pointer t =>
          have ht : Parsed t depth := ih t (by simp [parts]) hdepth
          have hcloses : (pointer t).Closes ↔ t.Closes := by
            rw [closes_iff]
            simp [FunctionLast, parts]
          refine ⟨fun h c _ _ r ↦ reads_pointer fun r ↦ ?_, (by rintro ⟨⟩), fun h c _ r ↦ ?_⟩
          · exact ht.reads (hcloses.mp h) _ (by decide) (fun _ ↦ by decide) r
          · exact stuck_pointer fun r ↦ ht.stuck (fun h' ↦ h (hcloses.mpr h')) _ (by decide) r
      | array t count =>
          have ht : Parsed t depth := ih t (by simp [parts]) hdepth
          have hcloses : (array t count).Closes ↔ t.Closes := by
            rw [closes_iff]
            simp [FunctionLast, parts]
          refine ⟨fun h c _ _ r ↦ reads_array hself.1 hself.2 fun r ↦ ?_, (by rintro ⟨⟩),
            fun h c _ r ↦ ?_⟩
          · exact ht.reads (hcloses.mp h) _ (by decide) (fun _ ↦ by decide) r
          · exact stuck_array fun r ↦ ht.stuck (fun h' ↦ h (hcloses.mpr h')) _ (by decide) r

end TypeExpr

end TinyCPlus.Compiler
