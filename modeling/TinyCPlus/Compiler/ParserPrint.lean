import TinyCPlus.Compiler.PrintedTokens

/-!
# Parsing a printed expression

`expr` gives back the tree it was printed from, unless an identifier in front
of a `<` looks like the start of a generic call.
-/

namespace TinyCPlus.Compiler

/-- No identifier of `ts`, with `rest` behind them, looks like a generic call. -/
def genericFree : List Token → List Token → Bool
  | [], _ => true
  | t :: ts, rest =>
      (t.kind != .id || !genericCallAhead (ts ++ rest)) && genericFree ts rest

theorem genericFree_append (xs ys rest : List Token) :
    genericFree (xs ++ ys) rest = (genericFree xs (ys ++ rest) && genericFree ys rest) := by
  induction xs with
  | nil => rfl
  | cons x xs ih => simp [genericFree, ih, Bool.and_assoc]

/-! ## Tokens that end an operand -/

/-- The texts that stand behind an operand of a printed tree. -/
def closers : List (List Char) := [] :: ")".toList :: binaryTexts

def Closed (rest : List Token) : Prop := (peek rest).text ∈ closers

theorem closers_other {s : List Char} (h : s ∈ closers) (t : String)
    (ht : t ∈ ["(", ".", "->", "[", "++", "--", "=>", ","]) : (s == t.toList) = false := by
  have hall : closers.all (fun s ↦ ["(", ".", "->", "[", "++", "--", "=>", ","].all fun t ↦
      !(s == t.toList)) = true := by decide +kernel
  simpa using List.all_eq_true.mp (List.all_eq_true.mp hall s h) t ht

theorem Closed.isAt_eq_false {rest : List Token} (h : Closed rest) (t : String)
    (ht : t ∈ ["(", ".", "->", "[", "++", "--", "=>", ","]) : isAt t rest = false :=
  closers_other h t ht

theorem closed_rparen (rest : List Token) : Closed (Tree.rparen :: rest) := by
  simp [Closed, closers, peek, Tree.rparen]

theorem closed_op (op : BinaryOp) (rest : List Token) : Closed (⟨.op, op.text⟩ :: rest) := by
  simp [Closed, closers, peek, mem_binaryTexts op.binary]

/-! ## Tokens that start an operand -/

theorem Ident.head (name : Ident) : ∃ c r, name.text = c :: r ∧ isIdStart c = true := by
  have hread := reads_of_lexeme name.lexes
  generalize htoken : (⟨.id, name.text⟩ : Token) = t at hread
  cases hread with
  | id hc _ _ => injection htoken with _ htext; exact ⟨_, _, htext, hc⟩
  | number _ _ hkind _ => subst htoken; rcases hkind with hkind | hkind <;> cases hkind
  | literal _ hkind _ _ => subst htoken; rcases hkind with hkind | hkind <;> cases hkind
  | op _ => cases htoken

theorem Ident.beq_eq_false (name : Ident) {s : List Char}
    (hs : s ∈ exprWords ∨ s.head?.any isIdStart = false) : (name.text == s) = false := by
  rw [beq_eq_false_iff_ne]
  rintro rfl
  rcases hs with hs | hs
  · exact name.notWord hs
  · obtain ⟨c, r, htext, hc⟩ := name.head
    rw [htext, List.head?_cons, Option.any_some, hc] at hs
    cases hs

theorem IntLiteral.beq_eq_false (value : IntLiteral) {s : List Char}
    (hs : s.head?.any Char.isDigit = false) : (value.text == s) = false := by
  rw [beq_eq_false_iff_ne]
  rintro rfl
  obtain ⟨-, c, r, htext, hc⟩ := Tree.IntLiteral_reads value
  rw [htext, List.head?_cons, Option.any_some, hc] at hs
  cases hs

/-- The prefix operators do not start as `p` says. -/
theorem isPrefixOp_eq_false {p : Char → Bool} {s : List Char}
    (hp : prefixTexts.all (fun t ↦ !t.head?.any p) = true)
    (hs : ∀ t : List Char, t.head?.any p = false → (s == t) = false) :
    isPrefixOp s = false := by
  rw [isPrefixOp, Bool.eq_false_iff]
  intro hmem
  rw [List.contains_iff_mem] at hmem
  have hhead := List.all_eq_true.mp hp s hmem
  have hself := hs s (by simpa using hhead)
  simp at hself

theorem literalNode_id {S : Type} (name : Ident) :
    literalNode (S := S) ⟨.id, name.text⟩ = none := by
  have hne : ∀ s ∈ exprWords, ¬ name.text = s := fun s hs heq ↦ name.notWord (heq ▸ hs)
  have hbool : ¬ (name.text = "true".toList ∨ name.text = "false".toList) :=
    not_or.mpr ⟨hne _ (by decide), hne _ (by decide)⟩
  unfold literalNode
  rw [if_neg (by simp), if_neg (by simp), if_neg (by simp), if_neg (by simp),
    if_neg hbool, if_neg (hne _ (by decide))]

section Grammar

variable {S : Type} (knownType : List Char → Bool)
  (stmt : ℕ → List Token → Option (S × List Token))

theorem enter_eq {depth : ℕ} (h : depth + 1 ≤ nestingLimit) : enter depth = some (depth + 1) :=
  if_pos h

theorem postfixes_closed {rest : List Token} (h : Closed rest) (fuel depth : ℕ) (n : Node S) :
    postfixes knownType stmt (fuel + 1) depth n rest = some (n, rest) := by
  rw [postfixes]
  simp [h.isAt_eq_false]

theorem operand_id (name : Ident) {rest : List Token} (hclosed : Closed rest)
    (hfree : genericCallAhead rest = false) (fuel depth : ℕ) :
    operand knownType stmt (fuel + 1) depth (⟨.id, name.text⟩ :: rest) =
      some (.id name.text none, rest) := by
  have hword : ∀ s : String, (s.toList ∈ exprWords ∨ s.toList.head?.any isIdStart = false) →
      isAt s (⟨.id, name.text⟩ :: rest) = false := fun s hs ↦ name.beq_eq_false hs
  have hsign : isPrefixOp name.text = false :=
    isPrefixOp_eq_false (by decide) fun t ht ↦ name.beq_eq_false (Or.inr ht)
  rw [operand]
  simp [lambdaAhead, hword "(" (by decide), hword "\x7b" (by decide), hword "new" (by decide),
    hword "sizeof" (by decide), hword "cast" (by decide), hword "await" (by decide),
    hword "spawn" (by decide), peek, hsign, take, literalNode_id, eat, hclosed.isAt_eq_false, hfree]

theorem operand_int (value : IntLiteral) (rest : List Token) (fuel depth : ℕ) :
    operand knownType stmt (fuel + 1) depth (⟨.int, value.text⟩ :: rest) =
      some (.int value.text, rest) := by
  have hword : ∀ s : String, s.toList.head?.any Char.isDigit = false →
      isAt s (⟨.int, value.text⟩ :: rest) = false := fun s hs ↦ value.beq_eq_false hs
  have hsign : isPrefixOp value.text = false :=
    isPrefixOp_eq_false (by decide) fun t ht ↦ value.beq_eq_false ht
  rw [operand]
  simp [lambdaAhead, hword "(" (by decide), hword "\x7b" (by decide), hword "new" (by decide),
    hword "sizeof" (by decide), hword "cast" (by decide), hword "await" (by decide),
    hword "spawn" (by decide), peek, hsign, take, literalNode]

theorem isAt_prefixOp (op : PrefixOp) (ts : List Token) :
    isPrefixOp op.text = true ∧ ∀ s : String,
      s ∈ ["(", "\x7b", "new", "sizeof", "cast"] → isAt s (⟨.op, op.text⟩ :: ts) = false := by
  refine ⟨by cases op <;> decide, ?_⟩
  have hall : (["(", "\x7b", "new", "sizeof", "cast"].all fun s ↦ !(op.text == s.toList)) = true := by
    cases op <;> decide
  intro s hs
  have hne := List.all_eq_true.mp hall s hs
  rw [Bool.not_eq_true'] at hne
  exact hne

theorem operand_isPrefix (op : PrefixOp) (fuel depth : ℕ) (ts : List Token) :
    operand knownType stmt (fuel + 1) depth (⟨.op, op.text⟩ :: ts) =
      (expr knownType stmt fuel depth 14 ts).map fun r ↦ (.unary op.text r.1 false, r.2) := by
  obtain ⟨hsign, hno⟩ := isAt_prefixOp op ts
  rw [operand]
  simp only [lambdaAhead, hno "(" (by decide), hno "\x7b" (by decide), hno "new" (by decide),
    hno "sizeof" (by decide), hno "cast" (by decide), Bool.false_and, Bool.false_eq_true,
    if_false, peek, hsign, if_true, take, reduceCtorEq, List.tail_cons,
    Option.bind_eq_bind, Option.bind_some]
  cases expr knownType stmt fuel depth 14 ts <;> rfl

/-! ## The lambda lookahead -/

def NoArrow (ts : List Token) : Prop := ∀ t ∈ ts, t.text ≠ "=>".toList

theorem skipParens_suffix {depth : ℕ} {ts rest : List Token}
    (h : skipParens depth ts = some rest) : rest <:+ ts := by
  induction ts generalizing depth with
  | nil => cases h
  | cons t ts ih =>
      rw [skipParens] at h
      generalize (if t.text == "(".toList then depth + 1
        else if t.text == ")".toList then depth - 1 else depth) = inside at h
      split at h
      · injection h with h
        rw [← h]
        exact List.suffix_cons t ts
      · exact (ih h).trans (List.suffix_cons t ts)

theorem lambdaAhead_eq_false {ts : List Token} (h : NoArrow ts) : lambdaAhead ts = false := by
  rw [lambdaAhead, Bool.and_eq_false_iff]
  refine Or.inr ?_
  cases hskip : skipParens 0 ts with
  | none => rfl
  | some rest =>
      rw [Option.any_some]
      cases rest with
      | nil => rfl
      | cons t rest =>
          have hmem := (skipParens_suffix hskip).subset List.mem_cons_self
          simpa [isAt, peek] using h t hmem

/-! ## Reading the printed tokens -/

/-- `expr` gets to its loop with `n` read off `ts`. -/
def Reaches (ts : List Token) (n : Node S) (depth min : ℕ) (rest : List Token) : Prop :=
  ∃ k N, ∀ fuel, N ≤ fuel → expr knownType stmt (fuel + k) depth min (ts ++ rest) =
    binaries knownType stmt fuel (depth + 1) min n rest

/-- With enough fuel, the parser `p` reads `n` and leaves `rest`. -/
def Finally (p : ℕ → Option (Node S × List Token)) (n : Node S) (rest : List Token) : Prop :=
  ∃ N, ∀ fuel, N ≤ fuel → p fuel = some (n, rest)

variable {knownType stmt} {ts rest : List Token} {n : Node S} {depth min : ℕ}

theorem Reaches.finally (h : Reaches knownType stmt ts n depth min rest)
    (hstop : precedence (peek rest).text < min) :
    Finally (fun fuel ↦ expr knownType stmt fuel depth min (ts ++ rest)) n rest := by
  obtain ⟨k, N, h⟩ := h
  refine ⟨N + 1 + k, fun fuel hfuel ↦ ?_⟩
  obtain ⟨m, rfl⟩ : ∃ m, fuel = m + 1 + k := ⟨fuel - 1 - k, by omega⟩
  dsimp only
  rw [h (m + 1) (by omega), binaries]
  simp [hstop]

theorem Finally.of_operand
    (h : Finally (fun fuel ↦ operand knownType stmt fuel (depth + 1) ts) n rest)
    (hdepth : depth + 1 ≤ nestingLimit) (hclosed : Closed rest) :
    Finally (fun fuel ↦ primary knownType stmt fuel depth ts) n rest := by
  obtain ⟨N, h⟩ := h
  refine ⟨N + 2, fun fuel hfuel ↦ ?_⟩
  obtain ⟨m, rfl⟩ : ∃ m, fuel = m + 2 := ⟨fuel - 2, by omega⟩
  have hread : operand knownType stmt (m + 1) (depth + 1) ts = some (n, rest) :=
    h (m + 1) (by omega)
  simp only [primary, enter_eq hdepth, Option.bind_eq_bind, Option.bind_some, hread]
  exact postfixes_closed knownType stmt hclosed m (depth + 1) n

theorem Finally.reaches
    (h : Finally (fun fuel ↦ primary knownType stmt fuel (depth + 1) (ts ++ rest)) n rest)
    (hdepth : depth + 1 ≤ nestingLimit) (min : ℕ) :
    Reaches knownType stmt ts n depth min rest := by
  obtain ⟨N, h⟩ := h
  refine ⟨1, N, fun fuel hfuel ↦ ?_⟩
  have hread : primary knownType stmt fuel (depth + 1) (ts ++ rest) = some (n, rest) :=
    h fuel hfuel
  simp only [expr, enter_eq hdepth, Option.bind_eq_bind, Option.bind_some, hread]

theorem Finally.paren
    (h : Finally (fun fuel ↦ expr knownType stmt fuel depth 1 (ts ++ Tree.rparen :: rest)) n
      (Tree.rparen :: rest)) (harrow : NoArrow (Tree.lparen :: ts ++ Tree.rparen :: rest)) :
    Finally (fun fuel ↦ operand knownType stmt fuel depth
      (Tree.lparen :: ts ++ Tree.rparen :: rest)) n rest := by
  obtain ⟨N, h⟩ := h
  refine ⟨N + 1, fun fuel hfuel ↦ ?_⟩
  obtain ⟨m, rfl⟩ : ∃ m, fuel = m + 1 := ⟨fuel - 1, by omega⟩
  have hread := h m (by omega)
  dsimp only at hread
  have hopen : isAt "(" (Tree.lparen :: (ts ++ Tree.rparen :: rest)) = true := rfl
  have hcomma : eat "," (Tree.rparen :: rest) = none := rfl
  have hclose : expect ")" (Tree.rparen :: rest) = some rest := rfl
  have hlambda := lambdaAhead_eq_false harrow
  rw [List.cons_append] at hlambda
  dsimp only
  rw [List.cons_append, operand]
  simp only [hlambda, Bool.false_eq_true, if_false, hopen, if_true, List.tail_cons, hread,
    Option.bind_eq_bind, Option.bind_some, hcomma, hclose]

/-- What the parser needs to stop behind the tree. -/
def Tree.Stops (e : Tree) (rest : List Token) : Prop :=
  match e with
  | .binary op _ _ => precedence (peek rest).text < rightLevel (precedence op.text)
  | _ => True

theorem BinaryOp.ne_arrow (op : BinaryOp) : op.text ≠ "=>".toList := by
  intro heq
  have hop := op.binary
  rw [heq] at hop
  exact absurd hop (by decide)

theorem Tree.noArrow_tokens (e : Tree) : NoArrow e.tokens := by
  refine Tree.forall_tokens (fun name ↦ ?_) (fun value ↦ ?_) (fun op ↦ ?_) (fun op ↦ ?_)
    (by decide) (by decide) e
  · simpa using name.beq_eq_false (s := "=>".toList) (Or.inr (by decide))
  · simpa using value.beq_eq_false (s := "=>".toList) (by decide)
  · cases op <;> decide
  · exact op.ne_arrow

theorem noArrow_parenthesize (parens : Bool) {ts : List Token} (h : NoArrow ts) :
    NoArrow (Tree.parenthesize parens ts) := by
  intro t ht
  rcases Tree.mem_parenthesize ht with ht | rfl | rfl
  · exact h t ht
  · decide
  · decide

theorem NoArrow.append {xs ys : List Token} (hx : NoArrow xs) (hy : NoArrow ys) :
    NoArrow (xs ++ ys) := fun t ht ↦ (List.mem_append.mp ht).elim (hx t) (hy t)

theorem Tree.one_le_level (e : Tree) : 1 ≤ e.level := by
  cases e with
  | binary op _ _ => exact op.binary
  | _ => exact Nat.le_of_ble_eq_true rfl

variable (knownType stmt) in
/-- What the induction over the tree shows. -/
def Tree.ReadBack (e : Tree) : Prop :=
  ∀ depth min rest, depth + e.nesting ≤ nestingLimit → min ≤ e.level →
    genericFree e.tokens rest = true → NoArrow rest → Closed rest → e.Stops rest →
    Reaches knownType stmt e.tokens e.node depth min rest

/-- A tree that is read back is read back in parentheses too. -/
theorem Tree.ReadBack.parenthesize {e : Tree} (h : e.ReadBack knownType stmt) (depth min : ℕ)
    (parens : Bool) (rest : List Token)
    (hdepth : depth + (e.nesting + if parens then 2 else 0) ≤ nestingLimit)
    (hlevel : parens = false → min ≤ e.level) (hstops : parens = false → e.Stops rest)
    (hfree : genericFree (Tree.parenthesize parens e.tokens) rest = true)
    (harrow : NoArrow rest) (hclosed : Closed rest) :
    Reaches knownType stmt (Tree.parenthesize parens e.tokens) e.node depth min rest := by
  cases parens with
  | false => exact h depth min rest hdepth (hlevel rfl) hfree harrow hclosed (hstops rfl)
  | true =>
      simp only [if_true] at hdepth
      have hinner : genericFree e.tokens (Tree.rparen :: rest) = true := by
        change genericFree (Tree.lparen :: (e.tokens ++ [Tree.rparen])) rest = true at hfree
        rw [genericFree, genericFree_append, Bool.and_eq_true, Bool.and_eq_true] at hfree
        exact hfree.2.1
      have hclose : precedence (peek (Tree.rparen :: rest)).text = 0 := rfl
      have hrest : NoArrow (Tree.rparen :: rest) := by
        intro t ht
        rcases List.mem_cons.mp ht with rfl | ht
        · decide
        · exact harrow t ht
      have hstop : e.Stops (Tree.rparen :: rest) := by
        cases e with
        | binary op _ _ =>
            have hop := op.binary
            rw [Tree.Stops, hclose, rightLevel]
            omega
        | _ => trivial
      have hread := (h (depth + 2) 1 (Tree.rparen :: rest) (by omega) e.one_le_level hinner hrest
        (closed_rparen rest) hstop).finally (by rw [hclose]; exact one_pos)
      have harrows : NoArrow (Tree.lparen :: e.tokens ++ Tree.rparen :: rest) := by
        refine NoArrow.append ?_ hrest
        intro t ht
        rcases List.mem_cons.mp ht with rfl | ht
        · decide
        · exact e.noArrow_tokens t ht
      have hnesting : depth + 1 + 1 ≤ nestingLimit := by omega
      have hprimary := (hread.paren harrows).of_operand hnesting hclosed
      have hsplit : Tree.lparen :: e.tokens ++ Tree.rparen :: rest =
          Tree.parenthesize true e.tokens ++ rest := by
        simp [Tree.parenthesize]
      rw [hsplit] at hprimary
      exact hprimary.reaches (by omega) min

/-- Every tree is read back, by induction on the tree. -/
theorem Tree.readBack (e : Tree) : e.ReadBack knownType stmt := by
  induction e with
  | id name =>
      intro depth min rest hdepth _ hfree harrow hclosed _
      have hgeneric : genericCallAhead rest = false := by
        simpa [Tree.tokens, genericFree] using hfree
      have hoperand : Finally (fun fuel ↦ operand knownType stmt fuel (depth + 2)
          ((Tree.id name).tokens ++ rest)) (Tree.id name).node rest := by
        refine ⟨1, fun fuel hfuel ↦ ?_⟩
        obtain ⟨m, rfl⟩ : ∃ m, fuel = m + 1 := ⟨fuel - 1, by omega⟩
        exact operand_id knownType stmt name hclosed hgeneric m (depth + 2)
      simp only [Tree.nesting] at hdepth
      exact (hoperand.of_operand (by omega) hclosed).reaches (by omega) min
  | int value =>
      intro depth min rest hdepth _ _ _ hclosed _
      have hoperand : Finally (fun fuel ↦ operand knownType stmt fuel (depth + 2)
          ((Tree.int value).tokens ++ rest)) (Tree.int value).node rest := by
        refine ⟨1, fun fuel hfuel ↦ ?_⟩
        obtain ⟨m, rfl⟩ : ∃ m, fuel = m + 1 := ⟨fuel - 1, by omega⟩
        exact operand_int knownType stmt value rest m (depth + 2)
      simp only [Tree.nesting] at hdepth
      exact (hoperand.of_operand (by omega) hclosed).reaches (by omega) min
  | unary op a iha =>
      intro depth min rest hdepth _ hfree harrow hclosed _
      simp only [Tree.nesting] at hdepth
      have hfree' : genericFree (Tree.parenthesize (a.level < 14) a.tokens) rest = true := by
        rw [Tree.tokens, genericFree, Bool.and_eq_true] at hfree
        exact hfree.2
      have hstops : (decide (a.level < 14)) = false → a.Stops rest := by
        intro hlevel
        cases a with
        | binary op' _ _ =>
            have hle := Compiler.precedence_le op'.text
            rw [decide_eq_false_iff_not, Tree.level] at hlevel
            omega
        | _ => trivial
      obtain ⟨N, hread⟩ := (iha.parenthesize (depth + 2) 14 (a.level < 14) rest
        (by simp only [decide_eq_true_eq]; omega)
        (fun hlevel ↦ by simpa using hlevel) hstops hfree' harrow hclosed).finally
        (lt_of_le_of_lt (Compiler.precedence_le _) (by decide))
      have hoperand : Finally (fun fuel ↦ operand knownType stmt fuel (depth + 2)
          ((Tree.unary op a).tokens ++ rest)) (Tree.unary op a).node rest := by
        refine ⟨N + 1, fun fuel hfuel ↦ ?_⟩
        obtain ⟨m, rfl⟩ : ∃ m, fuel = m + 1 := ⟨fuel - 1, by omega⟩
        have hoperand := hread m (by omega)
        dsimp only at hoperand ⊢
        rw [Tree.tokens, List.cons_append, operand_isPrefix, hoperand]
        rfl
      exact (hoperand.of_operand (by omega) hclosed).reaches (by omega) min
  | binary op a b iha ihb =>
      intro depth min rest hdepth hlevel hfree harrow hclosed hstops
      have hop := op.binary
      simp only [Tree.nesting] at hdepth
      simp only [Tree.level] at hlevel
      rw [Tree.Stops] at hstops
      rw [Tree.tokens, genericFree_append, genericFree, Bool.and_eq_true, Bool.and_eq_true]
        at hfree
      obtain ⟨hfreea, -, hfreeb⟩ := hfree
      -- The left operand leaves the operator, which does not bind it tighter.
      have harrowb := noArrow_parenthesize (b.level < rightLevel (precedence op.text))
        b.noArrow_tokens
      have hrest : NoArrow (⟨.op, op.text⟩ :: Tree.parenthesize
          (b.level < rightLevel (precedence op.text)) b.tokens ++ rest) := by
        refine NoArrow.append ?_ harrow
        intro t ht
        rcases List.mem_cons.mp ht with rfl | ht
        · exact op.ne_arrow
        · exact harrowb t ht
      obtain ⟨k, N, ha⟩ := iha.parenthesize depth min (a.level < Tree.leftLevel (precedence op.text))
        (⟨.op, op.text⟩ :: Tree.parenthesize
          (b.level < rightLevel (precedence op.text)) b.tokens ++ rest)
        (by simp only [decide_eq_true_eq]; omega)
        (fun hparens ↦ by
          rw [decide_eq_false_iff_not, Tree.leftLevel] at hparens
          omega)
        (fun hparens ↦ by
          rw [decide_eq_false_iff_not, Tree.leftLevel] at hparens
          cases a with
          | binary op' _ _ =>
              rw [Tree.level] at hparens
              change precedence op.text < rightLevel (precedence op'.text)
              rw [rightLevel]
              split at hparens <;> split <;> omega
          | _ => trivial)
        (by simpa using hfreea) hrest (closed_op op _)
      -- The right operand ends before the text behind the tree.
      obtain ⟨N', hb⟩ := (ihb.parenthesize (depth + 1) (rightLevel (precedence op.text))
        (b.level < rightLevel (precedence op.text)) rest
        (by simp only [decide_eq_true_eq]; omega)
        (fun hparens ↦ by simpa using hparens)
        (fun hparens ↦ by
          rw [decide_eq_false_iff_not] at hparens
          cases b with
          | binary op' _ _ =>
              rw [Tree.level] at hparens
              change precedence (peek rest).text < rightLevel (precedence op'.text)
              have hright : precedence op'.text ≤ rightLevel (precedence op'.text) :=
                Nat.le_add_right _ _
              omega
          | _ => trivial)
        hfreeb harrow hclosed).finally hstops
      refine ⟨k + 1, max N N', fun fuel hfuel ↦ ?_⟩
      have hleft := ha (fuel + 1) (by omega)
      have hright := hb fuel (by omega)
      dsimp only at hright
      have hsplit : (Tree.binary op a b).tokens ++ rest =
          Tree.parenthesize (a.level < Tree.leftLevel (precedence op.text)) a.tokens ++
            (⟨.op, op.text⟩ :: Tree.parenthesize (b.level < rightLevel (precedence op.text))
              b.tokens ++ rest) := by
        simp [Tree.tokens]
      have hfuel' : fuel + (k + 1) = fuel + 1 + k := by omega
      rw [hfuel', hsplit, hleft, List.cons_append, binaries]
      have hmin : ¬ precedence op.text < min := by omega
      simp only [peek, hmin, if_false, take, reduceCtorEq, List.tail_cons, Option.bind_eq_bind,
        Option.bind_some, hright, Tree.node]

end Grammar

end TinyCPlus.Compiler
