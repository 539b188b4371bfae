import TinyCPlus.Compiler.ParserPrint

/-!
# Printing and parsing expressions

A parse that gives a plain tree took no identifier for a generic call, so the
condition under which a printed tree is parsed back is exact.
-/

namespace TinyCPlus.Compiler

/-- The nodes of the trees. -/
inductive Plain {S : Type} : Node S → Prop where
  | id (name : List Char) : Plain (.id name none)
  | int (text : List Char) : Plain (.int text)
  | unary {text : List Char} {a : Node S} (ha : Plain a) : Plain (.unary text a false)
  | binary {text : List Char} {a b : Node S} (ha : Plain a) (hb : Plain b) :
      Plain (.binary text a b)

theorem Tree.plain_node {S : Type} (e : Tree) : Plain (e.node : Node S) := by
  induction e with
  | id name => exact Plain.id _
  | int value => exact Plain.int _
  | unary op a iha => exact Plain.unary iha
  | binary op a b iha ihb => exact Plain.binary iha ihb

/-- Every identifier token may be a leaf of a tree. -/
def Honest (ts : List Token) : Prop :=
  ∀ t ∈ ts, t.kind = .id → ∃ name : Ident, name.text = t.text

theorem Tree.honest_tokens (e : Tree) : Honest (e.tokens ++ [⟨.eof, []⟩]) := by
  intro t ht
  rcases List.mem_append.mp ht with ht | ht
  · refine Tree.forall_tokens (P := fun t ↦ t.kind = .id → ∃ name : Ident, name.text = t.text)
      (fun name _ ↦ ⟨name, rfl⟩) ?_ ?_ ?_ ?_ ?_ e t ht
    · exact fun _ h ↦ by cases h
    · exact fun _ h ↦ by cases h
    · exact fun _ h ↦ by cases h
    · exact fun h ↦ by cases h
    · exact fun h ↦ by cases h
  · rw [List.mem_singleton] at ht
    subst ht
    intro h
    cases h

/-- A parse used up the tokens in front of `rest`, none of them as the start
of a generic call. -/
def Used (ts rest : List Token) : Prop :=
  ∃ used, ts = used ++ rest ∧ genericFree used rest = true

theorem Used.refl (ts : List Token) : Used ts ts := ⟨[], rfl, rfl⟩

theorem Used.trans {xs ys zs : List Token} (hxy : Used xs ys) (hyz : Used ys zs) :
    Used xs zs := by
  obtain ⟨u, rfl, hu⟩ := hxy
  obtain ⟨v, rfl, hv⟩ := hyz
  refine ⟨u ++ v, (List.append_assoc _ _ _).symm, ?_⟩
  rw [genericFree_append, hu, hv]
  rfl

theorem Used.cons {t : Token} {ts rest : List Token} (ht : t.kind ≠ .id) (h : Used ts rest) :
    Used (t :: ts) rest := by
  obtain ⟨u, rfl, hu⟩ := h
  exact ⟨t :: u, rfl, by simp [genericFree, ht, hu]⟩

theorem Honest.of_used {ts rest : List Token} (h : Honest ts) (hused : Used ts rest) :
    Honest rest := by
  obtain ⟨u, rfl, -⟩ := hused
  exact fun t ht ↦ h t (List.mem_append_right _ ht)

/-- A token whose text no identifier has is used up for free. -/
theorem Used.tail {ts : List Token} (h : Honest ts) (hne : ts ≠ [])
    (htext : ∀ name : Ident, (name.text == (peek ts).text) = false) : Used ts ts.tail := by
  cases ts with
  | nil => exact absurd rfl hne
  | cons t ts =>
      refine Used.cons ?_ (Used.refl ts)
      intro hkind
      obtain ⟨name, hname⟩ := h t List.mem_cons_self hkind
      have hself := htext name
      rw [hname] at hself
      simp [peek] at hself

theorem ne_nil_of_isAt {s : String} {ts : List Token} (h : isAt s ts = true)
    (hs : s.toList ≠ []) : ts ≠ [] := by
  rintro rfl
  rw [isAt, beq_iff_eq] at h
  exact hs h.symm

theorem Used.of_isAt {s : String} {ts : List Token} (h : Honest ts) (hat : isAt s ts = true)
    (hs : s.toList ≠ []) (hstart : s.toList.head?.any isIdStart = false) : Used ts ts.tail := by
  refine Used.tail h (ne_nil_of_isAt hat hs) fun name ↦ ?_
  rw [isAt, beq_iff_eq] at hat
  rw [hat]
  exact name.beq_eq_false (Or.inr hstart)

theorem eat_eq_some {s : String} {ts rest : List Token} (h : eat s ts = some rest) :
    isAt s ts = true ∧ rest = ts.tail := by
  rw [eat] at h
  split at h
  · rename_i hat
    injection h with h
    exact ⟨hat, h.symm⟩
  · cases h

theorem take_eq_some {ts rest : List Token} {t : Token} (h : take ts = some (t, rest)) :
    ts = t :: rest := by
  rw [take] at h
  split at h
  · cases h
  · rename_i hkind
    cases ts with
    | nil => exact absurd rfl hkind
    | cons a ts =>
        injection h with h
        injection h with h₁ h₂
        rw [← h₁, ← h₂]
        rfl

section Grammar

variable {S : Type} {knownType : List Char → Bool}
  {stmt : ℕ → List Token → Option (S × List Token)}

theorem not_plain_lambdaBody {fuel depth : ℕ} {params : List (Option TypeExpr × List Char)}
    {ts rest : List Token} {n : Node S}
    (h : lambdaBody knownType stmt fuel depth params ts = some (n, rest)) : ¬ Plain n := by
  cases fuel with
  | zero => rw [lambdaBody] at h; cases h
  | succ fuel =>
      rw [lambdaBody] at h
      split at h <;>
        · obtain ⟨r, -, heq⟩ := Option.map_eq_some_iff.mp h
          injection heq with heq _
          subst heq
          rintro ⟨⟩

theorem not_plain_sliceEnd {fuel depth : ℕ} {n m : Node S} {b : Option (Node S)}
    {ts rest : List Token} (h : sliceEnd knownType stmt fuel depth n b ts = some (m, rest)) :
    ¬ Plain m := by
  cases fuel with
  | zero => rw [sliceEnd] at h; cases h
  | succ fuel =>
      rw [sliceEnd] at h
      split at h
      · cases h
        rintro ⟨⟩
      · obtain ⟨⟨c, ts'⟩, -, h⟩ := Option.bind_eq_some_iff.mp h
        obtain ⟨_, -, heq⟩ := Option.map_eq_some_iff.mp h
        cases heq
        rintro ⟨⟩

theorem not_plain_subscript {fuel depth : ℕ} {n m : Node S} {ts rest : List Token}
    (h : subscript knownType stmt fuel depth n ts = some (m, rest)) : ¬ Plain m := by
  cases fuel with
  | zero => rw [subscript] at h; cases h
  | succ fuel =>
      rw [subscript] at h
      split at h
      · exact not_plain_sliceEnd h
      · obtain ⟨⟨b, ts'⟩, -, h⟩ := Option.bind_eq_some_iff.mp h
        dsimp only at h
        split at h
        · exact not_plain_sliceEnd h
        · obtain ⟨_, -, heq⟩ := Option.map_eq_some_iff.mp h
          cases heq
          rintro ⟨⟩

/-- Anything behind an operand makes a node that no tree has. -/
theorem postfixes_plain {fuel depth : ℕ} {n m : Node S} {ts rest : List Token}
    (h : postfixes knownType stmt fuel depth n ts = some (m, rest)) (hm : Plain m) :
    m = n ∧ rest = ts := by
  induction fuel generalizing n ts with
  | zero => rw [postfixes] at h; cases h
  | succ fuel ih =>
      rw [postfixes] at h
      split at h
      · obtain ⟨⟨args, ts'⟩, -, h⟩ := Option.bind_eq_some_iff.mp h
        obtain ⟨rfl, -⟩ := ih h
        cases hm
      · split at h
        · obtain ⟨⟨name, ts'⟩, -, h⟩ := Option.bind_eq_some_iff.mp h
          obtain ⟨rfl, -⟩ := ih h
          cases hm
        · split at h
          · obtain ⟨⟨n', ts'⟩, hsub, h⟩ := Option.bind_eq_some_iff.mp h
            obtain ⟨rfl, -⟩ := ih h
            exact absurd hm (not_plain_subscript hsub)
          · split at h
            · obtain ⟨⟨op, ts'⟩, -, h⟩ := Option.bind_eq_some_iff.mp h
              obtain ⟨rfl, -⟩ := ih h
              cases hm
            · cases h
              exact ⟨rfl, rfl⟩

theorem precedence_id (name : Ident) : precedence name.text = 0 := by
  by_contra hne
  have hmem := mem_binaryTexts (Nat.pos_of_ne_zero hne)
  have hstart : ∀ s ∈ binaryTexts, s.head?.any isIdStart = false := by decide
  have hself := name.beq_eq_false (Or.inr (hstart _ hmem))
  rw [beq_self_eq_true] at hself
  cases hself

variable (knownType stmt) in
/-- What a successful parse of a plain node says, for each function of the parser. -/
structure Sound (fuel : ℕ) : Prop where
  expr : ∀ {depth min ts n rest}, 0 < min → Honest ts →
    expr knownType stmt fuel depth min ts = some (n, rest) → Plain n → Used ts rest
  binaries : ∀ {depth min left ts n rest}, 0 < min →
    binaries knownType stmt fuel depth min left ts = some (n, rest) → Plain n →
      Plain left ∧ (Honest ts → Used ts rest)
  primary : ∀ {depth ts n rest}, Honest ts →
    primary knownType stmt fuel depth ts = some (n, rest) → Plain n → Used ts rest
  operand : ∀ {depth ts n rest}, Honest ts →
    operand knownType stmt fuel depth ts = some (n, rest) → Plain n → Used ts rest

theorem prefixTexts_start : ∀ s ∈ prefixTexts, s.head?.any isIdStart = false := by decide

/-- The operand step, from the soundness of the recursive calls. -/
theorem Sound.operand_step {fuel depth : ℕ} (hs : Sound knownType stmt fuel) {ts rest : List Token}
    {n : Node S} (hhonest : Honest ts)
    (h : Compiler.operand knownType stmt (fuel + 1) depth ts = some (n, rest)) (hn : Plain n) :
    Used ts rest := by
  rw [Compiler.operand] at h
  by_cases hlambda : lambdaAhead ts = true
  · rw [if_pos hlambda] at h
    obtain ⟨ts₁, -, h⟩ := Option.bind_eq_some_iff.mp h
    obtain ⟨⟨params, ts₂⟩, -, h⟩ := Option.bind_eq_some_iff.mp h
    obtain ⟨ts₃, -, h⟩ := Option.bind_eq_some_iff.mp h
    exact absurd hn (not_plain_lambdaBody h)
  rw [if_neg hlambda] at h
  by_cases hopen : isAt "(" ts = true
  · rw [if_pos hopen] at h
    obtain ⟨⟨n', ts₁⟩, hexpr, h⟩ := Option.bind_eq_some_iff.mp h
    have htail := Used.of_isAt hhonest hopen (by decide) (by decide)
    dsimp only at h
    split at h
    · obtain ⟨⟨args, ts₂⟩, -, h⟩ := Option.bind_eq_some_iff.mp h
      obtain ⟨ts₃, -, h⟩ := Option.bind_eq_some_iff.mp h
      cases h
      cases hn
    · obtain ⟨ts₂, hclose, h⟩ := Option.bind_eq_some_iff.mp h
      cases h
      have hinner := hs.expr one_pos (hhonest.of_used htail) hexpr hn
      obtain ⟨hat, rfl⟩ := eat_eq_some hclose
      have hclosed := Used.of_isAt ((hhonest.of_used htail).of_used hinner) hat (by decide)
        (by decide)
      exact (htail.trans hinner).trans hclosed
  rw [if_neg hopen] at h
  by_cases hinit : isAt "\x7b" ts = true
  · rw [if_pos hinit] at h
    obtain ⟨r, -, heq⟩ := Option.map_eq_some_iff.mp h
    cases heq
    cases hn
  rw [if_neg hinit] at h
  by_cases hnew : isAt "new" ts = true
  · rw [if_pos hnew] at h
    obtain ⟨⟨declType, ts₁⟩, -, h⟩ := Option.bind_eq_some_iff.mp h
    dsimp only at h
    split at h
    · obtain ⟨r, -, heq⟩ := Option.map_eq_some_iff.mp h
      cases heq
      cases hn
    · cases h
      cases hn
  rw [if_neg hnew] at h
  by_cases hsizeof : isAt "sizeof" ts = true
  · rw [if_pos hsizeof] at h
    obtain ⟨ts₁, -, h⟩ := Option.bind_eq_some_iff.mp h
    obtain ⟨⟨declType, ts₂⟩, -, h⟩ := Option.bind_eq_some_iff.mp h
    obtain ⟨ts₃, -, h⟩ := Option.bind_eq_some_iff.mp h
    cases h
    cases hn
  rw [if_neg hsizeof] at h
  by_cases hcast : isAt "cast" ts = true
  · rw [if_pos hcast] at h
    obtain ⟨ts₁, -, h⟩ := Option.bind_eq_some_iff.mp h
    obtain ⟨⟨declType, ts₂⟩, -, h⟩ := Option.bind_eq_some_iff.mp h
    obtain ⟨ts₃, -, h⟩ := Option.bind_eq_some_iff.mp h
    obtain ⟨ts₄, -, h⟩ := Option.bind_eq_some_iff.mp h
    obtain ⟨⟨a, ts₅⟩, -, h⟩ := Option.bind_eq_some_iff.mp h
    obtain ⟨ts₆, -, h⟩ := Option.bind_eq_some_iff.mp h
    cases h
    cases hn
  rw [if_neg hcast] at h
  by_cases hsign : isPrefixOp (peek ts).text = true
  · rw [if_pos hsign] at h
    obtain ⟨⟨op, ts₁⟩, htake, h⟩ := Option.bind_eq_some_iff.mp h
    obtain ⟨⟨a, ts₂⟩, hexpr, h⟩ := Option.bind_eq_some_iff.mp h
    cases h
    have hts := take_eq_some htake
    subst hts
    rw [isPrefixOp, List.contains_iff_mem] at hsign
    have htail := Used.tail hhonest (by simp) fun name ↦
      name.beq_eq_false (Or.inr (prefixTexts_start _ hsign))
    cases hn with
    | unary ha => exact htail.trans (hs.expr (by decide) (hhonest.of_used htail) hexpr ha)
  rw [if_neg hsign] at h
  by_cases hawait : isAt "await" ts = true
  · rw [if_pos hawait] at h
    obtain ⟨r, -, heq⟩ := Option.map_eq_some_iff.mp h
    cases heq
    cases hn
  rw [if_neg hawait] at h
  by_cases hspawn : isAt "spawn" ts = true
  · rw [if_pos hspawn] at h
    obtain ⟨r, -, heq⟩ := Option.map_eq_some_iff.mp h
    cases heq
    cases hn
  · rw [if_neg hspawn] at h
    obtain ⟨⟨t, ts₁⟩, htake, hread⟩ := Option.bind_eq_some_iff.mp h
    have hts := take_eq_some htake
    subst hts
    clear h
    dsimp only at hread
    split at hread
    · rename_i n' hliteral
      cases hread
      refine Used.cons ?_ (Used.refl _)
      intro hkind
      unfold literalNode at hliteral
      rw [if_neg (by simp [hkind]), if_neg (by simp [hkind]), if_neg (by simp [hkind]),
        if_neg (by simp [hkind])] at hliteral
      split at hliteral
      · cases hliteral
        cases hn
      · split at hliteral
        · cases hliteral
          cases hn
        · cases hliteral
    · split at hread
      · split at hread
        · exact absurd hn (not_plain_lambdaBody hread)
        · split at hread
          · obtain ⟨ts₂, -, hread⟩ := Option.bind_eq_some_iff.mp hread
            obtain ⟨⟨items, ts₃⟩, -, hread⟩ := Option.bind_eq_some_iff.mp hread
            cases hread
            cases hn
          · rename_i hgeneric
            cases hread
            refine ⟨[t], rfl, ?_⟩
            rw [Bool.not_eq_true] at hgeneric
            simp [genericFree, hgeneric]
      · cases hread

/-- Every function of the parser is sound, by induction on the fuel. -/
theorem sound (fuel : ℕ) : Sound knownType stmt fuel := by
  induction fuel with
  | zero =>
      refine ⟨fun _ _ h ↦ ?_, fun _ h ↦ ?_, fun _ h ↦ ?_, fun _ h ↦ ?_⟩
      · rw [Compiler.expr] at h
        cases h
      · rw [Compiler.binaries] at h
        cases h
      · rw [Compiler.primary] at h
        cases h
      · rw [Compiler.operand] at h
        cases h
  | succ fuel ih =>
      refine ⟨fun hmin hhonest h hn ↦ ?_, fun hmin h hn ↦ ?_, fun hhonest h hn ↦ ?_,
        fun hhonest h hn ↦ ih.operand_step hhonest h hn⟩
      · rw [Compiler.expr] at h
        obtain ⟨depth', -, h⟩ := Option.bind_eq_some_iff.mp h
        obtain ⟨⟨left, ts₁⟩, hprimary, h⟩ := Option.bind_eq_some_iff.mp h
        obtain ⟨hleft, hused⟩ := ih.binaries hmin h hn
        have hfirst := ih.primary hhonest hprimary hleft
        exact hfirst.trans (hused (hhonest.of_used hfirst))
      · rw [Compiler.binaries] at h
        dsimp only at h
        split at h
        · cases h
          exact ⟨hn, fun _ ↦ Used.refl _⟩
        · rename_i hprec
          obtain ⟨⟨op, ts₁⟩, htake, hrest⟩ := Option.bind_eq_some_iff.mp h
          obtain ⟨⟨right, ts₂⟩, hright, hloop⟩ := Option.bind_eq_some_iff.mp hrest
          have hts := take_eq_some htake
          subst hts
          obtain ⟨hbinary, hused⟩ := ih.binaries hmin hloop hn
          cases hbinary with
          | binary hleft hplain =>
              refine ⟨hleft, fun hhonest ↦ ?_⟩
              have htail := Used.tail hhonest (by simp) fun name ↦ by
                rw [beq_eq_false_iff_ne]
                intro heq
                rw [← heq, precedence_id name] at hprec
                omega
              have hright := ih.expr (Nat.lt_of_lt_of_le hmin
                ((Nat.le_of_not_lt hprec).trans (Nat.le_add_right _ _)))
                (hhonest.of_used htail) hright hplain
              exact htail.trans (hright.trans (hused ((hhonest.of_used htail).of_used hright)))
      · rw [Compiler.primary] at h
        obtain ⟨depth', -, h⟩ := Option.bind_eq_some_iff.mp h
        obtain ⟨⟨n', ts₁⟩, hoperand, h⟩ := Option.bind_eq_some_iff.mp h
        obtain ⟨rfl, rfl⟩ := postfixes_plain h hn
        exact ih.operand hhonest hoperand hn

/-! ## The round trip -/

variable (knownType stmt) in
/-- Lexing and parsing the printed tree gives the tree and uses up the source. -/
def Tree.ParsesBack (e : Tree) (depth : ℕ) : Prop :=
  Finally (fun fuel ↦ (lex e.print).bind fun ts ↦
    expr knownType stmt fuel depth 1 (ts.map Prod.fst)) e.node [⟨.eof, []⟩]

theorem Tree.lex_print_bind (e : Tree) (fuel depth : ℕ) :
    ((lex e.print).bind fun ts ↦ expr knownType stmt fuel depth 1 (ts.map Prod.fst)) =
      if e.tokens.length + 1 ≤ tokenLimit then
        expr knownType stmt fuel depth 1 (e.tokens ++ [⟨.eof, []⟩])
      else none := by
  have hlex := e.lex_print
  split at hlex
  · rename_i hlimit
    obtain ⟨ts, hts, hmap⟩ := Option.map_eq_some_iff.mp hlex
    rw [hts, Option.bind_some, hmap, if_pos hlimit]
  · rename_i hlimit
    rw [Option.map_eq_none_iff] at hlex
    rw [hlex, if_neg hlimit]
    rfl

/-- Only a tree without a lookalike of a generic call is parsed back. -/
theorem Tree.ParsesBack.free {e : Tree} {depth : ℕ} (h : e.ParsesBack knownType stmt depth) :
    e.tokens.length + 1 ≤ tokenLimit ∧ genericFree e.tokens [⟨.eof, []⟩] = true := by
  obtain ⟨N, h⟩ := h
  have hparse := h N (le_refl N)
  dsimp only at hparse
  rw [e.lex_print_bind] at hparse
  split at hparse
  · rename_i hlimit
    obtain ⟨used, hused, hfree⟩ :=
      (sound N).expr one_pos e.honest_tokens hparse e.plain_node
    rw [← List.append_cancel_right hused] at hfree
    exact ⟨hlimit, hfree⟩
  · cases hparse

/-- A printed tree within the nesting limit is lexed and parsed back exactly
when it fits the token table and no identifier in front of a `<` looks like the
start of a generic call. -/
theorem expr_parses_print_iff (knownType : List Char → Bool)
    (stmt : ℕ → List Token → Option (S × List Token)) (e : Tree) (depth : ℕ)
    (hdepth : depth + e.nesting ≤ nestingLimit) :
    e.ParsesBack knownType stmt depth ↔
      e.tokens.length + 1 ≤ tokenLimit ∧ genericFree e.tokens [⟨.eof, []⟩] = true := by
  refine ⟨Tree.ParsesBack.free, ?_⟩
  rintro ⟨hlimit, hfree⟩
  have harrow : NoArrow [⟨.eof, []⟩] := by simp [NoArrow]
  have hclosed : Closed [⟨.eof, []⟩] := by simp [Closed, closers, peek]
  have hend : precedence (peek [⟨.eof, []⟩]).text = 0 := rfl
  have hstops : e.Stops [⟨.eof, []⟩] := by
    cases e with
    | binary op _ _ =>
        have hop := op.binary
        rw [Tree.Stops, hend, rightLevel]
        omega
    | _ => trivial
  obtain ⟨N, hread⟩ := (@Tree.readBack _ knownType stmt e depth 1
    [⟨.eof, []⟩] hdepth e.one_le_level hfree harrow hclosed hstops).finally
    (by rw [hend]; exact one_pos)
  refine ⟨N, fun fuel hfuel ↦ ?_⟩
  dsimp only
  rw [e.lex_print_bind, if_pos hlimit]
  exact hread fuel hfuel

end Grammar

/-! ## Two comparisons -/

def nameA : Ident := ⟨"a".toList, by decide, by decide⟩

def nameB : Ident := ⟨"b".toList, by decide, by decide⟩

def one : IntLiteral := ⟨"1".toList, by decide⟩

def less : BinaryOp := ⟨"<".toList, by decide⟩

def greater : BinaryOp := ⟨">".toList, by decide⟩

def equal : BinaryOp := ⟨"==".toList, by decide⟩

def both : BinaryOp := ⟨"&&".toList, by decide⟩

def noTypes : List Char → Bool := fun _ ↦ false

def noStmt : ℕ → List Token → Option (Unit × List Token) := fun _ _ ↦ none

/-- `a < 1 && b > 1` -/
def comparisons : Tree :=
  .binary both (.binary less (.id nameA) (.int one)) (.binary greater (.id nameB) (.int one))

/-- `a < 1 && b > ( a == 1 )` -/
def lookalike : Tree :=
  .binary both (.binary less (.id nameA) (.int one))
    (.binary greater (.id nameB) (.binary equal (.id nameA) (.int one)))

theorem expr_parses_print_iff_comparisons : comparisons.ParsesBack noTypes noStmt 0 :=
  (expr_parses_print_iff noTypes noStmt comparisons 0 (by decide)).mpr
    ⟨by decide, by decide⟩

/-- The lookahead runs from the `<` over the `&&` to the `>`, finds the
parenthesis and takes `a` for the name of a generic function. -/
theorem lookalike_not_parsed_back : 0 + lookalike.nesting ≤ nestingLimit ∧
    lookalike.print = "a < 1 && b > ( a == 1 )".toList ∧
      ¬ lookalike.ParsesBack noTypes noStmt 0 :=
  ⟨by decide, by decide, fun h ↦ absurd h.free.2 (by decide)⟩

end TinyCPlus.Compiler
