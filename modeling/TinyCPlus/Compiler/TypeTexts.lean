import TinyCPlus.Compiler.FormatterRoundTrip
import TinyCPlus.Compiler.PrintedTokens
import TinyCPlus.Compiler.TypeTable

/-!
# Types as texts

A type is spelled without blanks.  The lexer reads two closing angle brackets side by side as one
`>>`, from the left.
-/

namespace TinyCPlus.Compiler

open TinyCPlus.Library

def opToken (s : String) : Token := ⟨.op, s.toList⟩

def wordToken (s : String) : Token := ⟨.id, s.toList⟩

/-- The tokens of a name with points in it. -/
def nameTokens (name : List Char) : List Token :=
  match name.splitOn '.' with
  | [] => []
  | w :: ws => ⟨.id, w⟩ :: ws.flatMap fun w ↦ [opToken ".", ⟨.id, w⟩]

namespace TypeExpr

/-! ## The types inside a type -/

/-- The types that a type is made of, as they are read. -/
def parts : TypeExpr → List TypeExpr
  | .named _ => []
  | .generic _ items | .tuple items => items
  | .function _ params result => result :: params
  | .slice t | .const t | .pointer t | .array t _ => [t]

theorem sizeOf_lt_of_mem_parts {t u : TypeExpr} (h : u ∈ t.parts) : sizeOf u < sizeOf t := by
  cases t with
  | named name => cases h
  | generic name items =>
      have hlt : sizeOf u < sizeOf items := List.sizeOf_lt_of_mem h
      simp only [generic.sizeOf_spec]
      omega
  | tuple items =>
      have hlt : sizeOf u < sizeOf items := List.sizeOf_lt_of_mem h
      simp only [tuple.sizeOf_spec]
      omega
  | function closure params result =>
      simp only [function.sizeOf_spec]
      rcases List.mem_cons.mp h with rfl | h
      · omega
      · have hlt := List.sizeOf_lt_of_mem h
        omega
  | slice t => simp_all [parts]
  | const t => simp_all [parts]
  | pointer t => simp_all [parts]
  | array t count =>
      simp_all [parts]
      omega

/-- Induction on a type over its parts. -/
theorem parts_induction {P : TypeExpr → Prop} (h : ∀ t, (∀ u ∈ t.parts, P u) → P t)
    (t : TypeExpr) : P t :=
  h t fun u _ ↦ parts_induction h u
termination_by sizeOf t
decreasing_by exact sizeOf_lt_of_mem_parts ‹_›

/-- All types in a type in the order in which they are complete. -/
def completed : TypeExpr → List TypeExpr
  | .named name => [.named name]
  | .generic name items => completedAll items ++ [.generic name items]
  | .function closure params result =>
      result.completed ++ completedAll params ++ [.function closure params result]
  | .tuple items => completedAll items ++ [.tuple items]
  | .slice t => t.completed ++ [.slice t]
  | .const t => t.completed ++ [.const t]
  | .pointer t => t.completed ++ [.pointer t]
  | .array t count => t.completed ++ [.array t count]
where
  completedAll : List TypeExpr → List TypeExpr
  | [] => []
  | t :: ts => t.completed ++ completedAll ts

open completed (completedAll)

theorem completedAll_eq (ts : List TypeExpr) : completedAll ts = ts.flatMap completed := by
  induction ts with
  | nil => rfl
  | cons t ts ih => rw [completedAll, ih, List.flatMap_cons]

theorem completed_eq (t : TypeExpr) : t.completed = t.parts.flatMap completed ++ [t] := by
  cases t <;> simp [completed, parts, completedAll_eq]

theorem mem_completed_self (t : TypeExpr) : t ∈ t.completed := by
  rw [completed_eq]
  simp

theorem mem_completed {t u : TypeExpr} :
    u ∈ t.completed ↔ u = t ∨ ∃ v ∈ t.parts, u ∈ v.completed := by
  rw [completed_eq]
  simp only [List.mem_append, List.mem_flatMap, List.mem_singleton]
  exact or_comm

/-- How many calls of `parse_type` are open inside the innermost one. -/
def nesting : TypeExpr → ℕ
  | .named _ => 1
  | .generic _ items | .tuple items => nestingAll items + 1
  | .function _ params result => max result.nesting (nestingAll params) + 1
  | .slice t => t.nesting + 1
  | .const t | .pointer t | .array t _ => t.nesting
where
  nestingAll : List TypeExpr → ℕ
  | [] => 0
  | t :: ts => max t.nesting (nestingAll ts)

/-! ## Spelling -/

def isFunction : TypeExpr → Bool
  | .function _ _ _ => true
  | _ => false

/-- A name that `parse_type` can read: identifiers with points between them. -/
def IsTypeName (name : List Char) : Prop :=
  (∀ w ∈ name.splitOn '.', lexeme w = some (.token ⟨.id, w⟩)) ∧
    (name.splitOn '.').head? ≠ some "const".toList

/-- The names that `parse_type` does not take for a generic class. -/
def builtinGenerics : List (List Char) := ["func", "closure", "Slice"].map String.toList

/-- The outermost form of a type has a spelling, without `const`. -/
def Formed : TypeExpr → Prop
  | .named name => IsTypeName name
  | .generic name items => IsTypeName name ∧ name ∉ builtinGenerics ∧ items ≠ []
  | .tuple items => items ≠ []
  | .array _ count => 0 < count ∧ count ≤ 10000000
  | .const _ => False
  | _ => True

def tokens : TypeExpr → List Token
  | .named name => nameTokens name
  | .generic name items => nameTokens name ++ opToken "<" :: tokensAll items ++ [opToken ">"]
  | .function closure params result =>
      wordToken (if closure then "closure" else "func") :: opToken "<" :: result.tokens ++
        opToken "(" :: tokensAll params ++ [opToken ")", opToken ">"]
  | .tuple items => opToken "(" :: tokensAll items ++ [opToken ")"]
  | .slice t => wordToken "Slice" :: opToken "<" :: t.tokens ++ [opToken ">"]
  | .const t => wordToken "const" :: t.tokens
  | .pointer t => t.tokens ++ [opToken "*"]
  | .array t count => t.tokens ++ [opToken "[", ⟨.int, Nat.toDigits 10 count⟩, opToken "]"]
where
  /-- The types of a list with commas between them. -/
  tokensAll : List TypeExpr → List Token
  | [] => []
  | [t] => t.tokens
  | t :: ts => t.tokens ++ opToken "," :: tokensAll ts

/-- The text of a type. -/
def text (t : TypeExpr) : List Char := t.tokens.flatMap Token.text

/-- The last type in front of a `>` is a function type, whose own `>` comes directly before. -/
def FunctionLast : TypeExpr → Prop
  | .generic _ items => ∃ t ∈ items.getLast?, t.isFunction = true
  | .slice t => t.isFunction = true
  | _ => False

/-- The closing angle brackets can be read one by one. -/
def Closes (t : TypeExpr) : Prop := ∀ u ∈ t.completed, ¬FunctionLast u

end TypeExpr

/-- A type as it stands in a source, within the nesting limit. -/
structure SourceType where
  type : TypeExpr
  formed : ∀ u ∈ type.completed, u.Formed
  nesting_le : type.nesting ≤ nestingLimit

/-! ## Lexing -/

def closer : Token := opToken ">"

/-- The tokens that the lexer sees: closing angle brackets side by side become one token. -/
def joinClosers : List Token → List Token
  | [] => []
  | [t] => [t]
  | t :: t' :: ts =>
      if t = closer ∧ t' = closer then opToken ">>" :: joinClosers ts
      else t :: joinClosers (t' :: ts)

/-- The operators behind the name or the end of a type. -/
def behindType : List Token := [".", "<", "(", ",", ")", ">", ">>", "*", "["].map opToken

/-- The operators that end a type. -/
def typeEnds : List Token := [">", ">>", ")", "*", "]"].map opToken

/-- The operators in front of a type or a part of a name. -/
def typeOpeners : List Token := ["<", "(", ",", "."].map opToken

/-- The pairs of tokens that stand side by side in a type. -/
inductive Beside : Token → Token → Prop where
  | word {a b : Token} (ha : a.kind = .id) (hb : b ∈ behindType) : Beside a b
  | opens {a b : Token} (ha : a ∈ typeOpeners) (hb : b.kind = .id ∨ b = opToken "(") : Beside a b
  | empty : Beside (opToken "(") (opToken ")")
  | ends {a b : Token} (ha : a ∈ typeEnds) (hb : b ∈ behindType) : Beside a b
  | length {b : Token} (hb : b.kind = .int) : Beside (opToken "[") b
  | lengthEnd {a : Token} (ha : a.kind = .int) : Beside a (opToken "]")

/-- The second token may stand behind the first whatever comes then. -/
def Fits (a b : Token) : Prop := ∀ s, Follows a (b.text ++ s)

theorem Follows.of_extensions {a : Token} (hkind : a.kind = .op) {s : List Char}
    (h : ∀ e ∈ extensions a.text, e.head? ≠ s.head?) : Follows a s := by
  rw [Follows, hkind]
  intro e he hfront
  obtain ⟨hne, -⟩ := mem_extensions.mp he
  obtain ⟨r, rfl⟩ := hfront
  apply h e he
  cases e with
  | nil => exact absurd rfl hne
  | cons c e => rfl

theorem extensions_typeOpeners : ∀ a ∈ opToken "[" :: typeOpeners, a.kind = .op ∧
    ∀ e ∈ extensions a.text, e.head?.any isIdStart = false ∧ e.head?.any Char.isDigit = false ∧
      e.head? ≠ some '(' ∧ e.head? ≠ some ')' := by
  decide +kernel

theorem extensions_typeEnds : ∀ a ∈ typeEnds, a.kind = .op ∧ ∀ b ∈ behindType,
    (a = closer ∧ (b = closer ∨ b = opToken ">>")) ∨
      ∀ e ∈ extensions a.text, e.head? ≠ b.text.head? := by
  decide +kernel

theorem behindType_stops : ∀ b ∈ behindType, b.text.head?.any isIdChar = false ∧ b.text ≠ [] := by
  decide

theorem Spelled.word {t : Token} (ht : Spelled t) (hkind : t.kind = .id) :
    ∃ c r, t.text = c :: r ∧ isIdStart c = true ∧ ∀ x ∈ t.text, isIdChar x = true := by
  have hreads := reads_of_lexeme ht
  cases hreads with
  | id hc _ hall => exact ⟨_, _, rfl, hc, hall⟩
  | number _ _ hnumber _ => rcases hnumber with h | h <;> rw [h] at hkind <;> cases hkind
  | literal _ hliteral _ _ => rcases hliteral with h | h <;> rw [h] at hkind <;> cases hkind
  | op _ => cases hkind

theorem Spelled.int {t : Token} (ht : Spelled t) (hkind : t.kind = .int) :
    ∃ c r, t.text = c :: r ∧ c.isDigit = true := by
  have hreads := reads_of_lexeme ht
  cases hreads with
  | id _ _ _ => cases hkind
  | number hc ht _ _ => exact ⟨_, _, ht, hc⟩
  | literal _ hliteral _ _ => rcases hliteral with h | h <;> rw [h] at hkind <;> cases hkind
  | op _ => cases hkind

theorem stops_behindType {b : Token} (hb : b ∈ behindType) (s : List Char) :
    Stops isIdChar (b.text ++ s) := by
  obtain ⟨hstop, hne⟩ := behindType_stops b hb
  cases htext : b.text with
  | nil => exact absurd htext hne
  | cons c r =>
      rw [htext] at hstop
      simpa using hstop

/-- Side by side in a type two tokens stay apart, but for two closing brackets. -/
theorem Beside.fits {a b : Token} (h : Beside a b) (hb : Spelled b)
    (hclosers : a = closer → b ≠ closer ∧ b ≠ opToken ">>") : Fits a b := by
  intro s
  cases h with
  | word ha hb =>
      rw [Follows, ha]
      exact stops_behindType hb s
  | opens ha hnext =>
      obtain ⟨hkind, hext⟩ := extensions_typeOpeners a (List.mem_cons_of_mem _ ha)
      refine Follows.of_extensions hkind fun e he ↦ ?_
      obtain ⟨hstart, -, hparen, -⟩ := hext e he
      rcases hnext with hid | rfl
      · obtain ⟨c, r, htext, hc, -⟩ := hb.word hid
        rw [htext]
        intro heq
        rw [heq] at hstart
        simp [hc] at hstart
      · exact hparen
  | empty =>
      obtain ⟨hkind, hext⟩ := extensions_typeOpeners (opToken "(") (by decide)
      refine Follows.of_extensions hkind fun e he ↦ ?_
      exact (hext e he).2.2.2
  | ends ha hb =>
      obtain ⟨hkind, hext⟩ := extensions_typeEnds a ha
      obtain ⟨-, hne⟩ := behindType_stops b hb
      rcases hext b hb with ⟨rfl, hb⟩ | hext
      · obtain ⟨hfirst, hsecond⟩ := hclosers rfl
        rcases hb with rfl | rfl
        · exact absurd rfl hfirst
        · exact absurd rfl hsecond
      · refine Follows.of_extensions hkind fun e he ↦ ?_
        cases htext : b.text with
        | nil => exact absurd htext hne
        | cons c r =>
            have hhead := hext e he
            rw [htext] at hhead
            exact hhead
  | length hint =>
      obtain ⟨hkind, hext⟩ := extensions_typeOpeners (opToken "[") (by decide)
      refine Follows.of_extensions hkind fun e he ↦ ?_
      obtain ⟨-, hdigit, -⟩ := hext e he
      obtain ⟨c, r, htext, hc⟩ := hb.int hint
      rw [htext]
      intro heq
      rw [heq] at hdigit
      simp [hc] at hdigit
  | lengthEnd ha =>
      rw [Follows, ha]
      refine ⟨by simp [opToken, isIdChar], fun _ _ hahead ↦ ?_, fun hkind ↦ ?_⟩
      · exact hahead
      · rw [ha] at hkind
        cases hkind

theorem joinClosers_head {u v : Token} {ts : List Token}
    (h : (joinClosers (u :: ts)).head? = some v) :
    v = u ∨ (u = closer ∧ v = opToken ">>") := by
  cases ts with
  | nil => exact .inl (by simpa [joinClosers] using h.symm)
  | cons t ts =>
      rw [joinClosers] at h
      split at h
      · rename_i hclosers
        exact .inr ⟨hclosers.1, by simpa using h.symm⟩
      · exact .inl (by simpa using h.symm)

theorem beside_closer {a : Token} (h : Beside a closer) : Beside a (opToken ">>") := by
  generalize hb : closer = b at h
  cases h with
  | word ha _ => exact .word ha (by decide)
  | opens _ hnext =>
      subst hb
      rcases hnext with h | h
      · cases h
      · cases h
  | empty => cases hb
  | ends ha _ => exact .ends ha (by decide)
  | length h =>
      subst hb
      cases h
  | lengthEnd _ => cases hb

theorem spelled_joined {ts : List Token} (h : ∀ t ∈ ts, Spelled t) :
    ∀ t ∈ joinClosers ts, Spelled t := by
  induction ts using joinClosers.induct with
  | case1 => exact h
  | case2 t => exact h
  | case3 t t' ts hclosers ih =>
      rw [joinClosers, if_pos hclosers]
      intro u hu
      rcases List.mem_cons.mp hu with rfl | hu
      · exact spelled_op (by decide +kernel)
      · exact ih (fun t ht ↦ h t (by simp [ht])) u hu
  | case4 t t' ts hclosers ih =>
      rw [joinClosers, if_neg hclosers]
      intro u hu
      rcases List.mem_cons.mp hu with rfl | hu
      · exact h _ (by simp)
      · exact ih (fun t ht ↦ h t (List.mem_cons_of_mem _ ht)) u hu

theorem beside_of_closer {b : Token} (h : Beside closer b) : Beside (opToken ">>") b := by
  generalize ha : closer = a at h
  cases h with
  | word ha' _ =>
      subst ha
      cases ha'
  | opens ha' _ =>
      subst ha
      exact absurd ha' (by decide)
  | empty => cases ha
  | ends _ hb => exact .ends (by decide) hb
  | length _ => cases ha
  | lengthEnd ha' =>
      subst ha
      cases ha'

theorem joinClosers_text (ts : List Token) :
    (joinClosers ts).flatMap Token.text = ts.flatMap Token.text := by
  induction ts using joinClosers.induct with
  | case1 => rfl
  | case2 t => rfl
  | case3 t t' ts hclosers ih =>
      obtain ⟨rfl, rfl⟩ := hclosers
      rw [joinClosers, if_pos ⟨rfl, rfl⟩, List.flatMap_cons, ih]
      rfl
  | case4 t t' ts hclosers ih =>
      rw [joinClosers, if_neg hclosers, List.flatMap_cons, ih, ← List.flatMap_cons]

/-- Joining the closing brackets leaves no tokens that the lexer would join. -/
theorem joinClosers_fits {ts : List Token} (hspelled : ∀ t ∈ ts, Spelled t)
    (hsingle : opToken ">>" ∉ ts) (h : ts.IsChain Beside) : (joinClosers ts).IsChain Fits := by
  induction ts using joinClosers.induct with
  | case1 => exact .nil
  | case2 t => exact .singleton t
  | case3 t t' ts hclosers ih =>
      obtain ⟨rfl, rfl⟩ := hclosers
      rw [joinClosers, if_pos ⟨rfl, rfl⟩, List.isChain_cons]
      rw [List.isChain_cons_cons] at h
      have hspelled' : ∀ t ∈ ts, Spelled t := fun t ht ↦ hspelled t (by simp [ht])
      have hsingle' : opToken ">>" ∉ ts := fun ht ↦ hsingle (by simp [ht])
      refine ⟨fun v hv ↦ ?_, ih hspelled' hsingle' h.2.tail⟩
      have hsv := spelled_joined hspelled' v (List.mem_of_mem_head? hv)
      cases ts with
      | nil => cases hv
      | cons u ts =>
          have hu := beside_of_closer (List.isChain_cons_cons.mp h.2).1
          have hapart : opToken ">>" = closer → v ≠ closer ∧ v ≠ opToken ">>" := by
            intro heq
            cases heq
          rcases joinClosers_head hv with rfl | ⟨rfl, rfl⟩
          · exact hu.fits hsv hapart
          · exact (beside_closer hu).fits hsv hapart
  | case4 t t' ts hclosers ih =>
      rw [joinClosers, if_neg hclosers, List.isChain_cons]
      rw [List.isChain_cons_cons] at h
      have hspelled' : ∀ u ∈ t' :: ts, Spelled u := fun u hu ↦
        hspelled u (List.mem_cons_of_mem _ hu)
      have hsingle' : opToken ">>" ∉ t' :: ts := fun ht ↦
        hsingle (List.mem_cons_of_mem _ ht)
      refine ⟨fun v hv ↦ ?_, ih hspelled' hsingle' h.2⟩
      have hsv := spelled_joined hspelled' v (List.mem_of_mem_head? hv)
      rcases joinClosers_head hv with rfl | ⟨rfl, rfl⟩
      · refine h.1.fits hsv fun ht ↦ ⟨fun hv ↦ hclosers ⟨ht, hv⟩, ?_⟩
        rintro rfl
        exact hsingle (by simp)
      · exact (beside_closer h.1).fits hsv fun ht ↦ absurd ⟨ht, rfl⟩ hclosers

/-- Lexemes that fit are read back. -/
theorem allEnd_of_fits {ts : List Token} (hspelled : ∀ t ∈ ts, Spelled t)
    (h : ts.IsChain Fits) : lexer.AllEnd (ts.map Lexeme.token) := by
  induction ts with
  | nil => trivial
  | cons t ts ih =>
      rw [List.isChain_cons] at h
      refine ⟨?_, ih (fun t ht ↦ hspelled t (List.mem_cons_of_mem _ ht)) h.2⟩
      have ht := (hspelled t List.mem_cons_self).follows (lexer.render (ts.map Lexeme.token))
      apply ht.mpr
      cases ts with
      | nil => exact follows_nil t
      | cons u ts => exact h.1 u rfl _

/-! ## The tokens of a type -/

/-- The tokens that stand in types. -/
structure TypeToken (t : Token) : Prop where
  spelled : Spelled t
  single : t ≠ opToken ">>"
  kind : t.kind = .id ∨ t.kind = .op ∨ t.kind = .int

theorem TypeToken.printed {t : Token} (h : TypeToken t) :
    ∀ c ∈ t.text, Tree.isPrinted c = true := by
  rcases h.kind with hkind | hkind | hkind
  · obtain ⟨-, -, -, -, hall⟩ := h.spelled.word hkind
    intro c hc
    simp [Tree.isPrinted, hall c hc]
  · have hreads := reads_of_lexeme h.spelled
    cases hreads with
    | id _ _ _ => cases hkind
    | number _ _ hnumber _ => rcases hnumber with h | h <;> rw [h] at hkind <;> cases hkind
    | literal _ hliteral _ _ => rcases hliteral with h | h <;> rw [h] at hkind <;> cases hkind
    | op htext => exact Tree.opTexts_printed htext
  · have hlexes : lexeme t.text = some (.token ⟨.int, t.text⟩) := by
      rw [h.spelled, ← hkind]
    exact Tree.IntLiteral_printed ⟨t.text, hlexes⟩

/-- The operators in types. -/
theorem typeToken_op : ∀ s ∈ ["<", "(", ",", ".", ">", ")", "*", "[", "]"],
    TypeToken (opToken s) := by
  intro s hs
  have htext : ∀ s ∈ ["<", "(", ",", ".", ">", ")", "*", "[", "]"],
      s.toList ∈ opTexts ∧ opToken s ≠ opToken ">>" := by decide +kernel
  exact ⟨spelled_op (htext s hs).1, (htext s hs).2, .inr (.inl rfl)⟩

/-- Tokens with which a type starts and ends, and which may stand side by side. -/
structure TypeTokens (ts : List Token) : Prop where
  token : ∀ t ∈ ts, TypeToken t
  chain : ts.IsChain Beside
  head : ∃ t ∈ ts.head?, t.kind = .id ∨ t = opToken "("
  last : ∃ t ∈ ts.getLast?, t.kind = .id ∨ t ∈ typeEnds

namespace TypeTokens

theorem ne_nil {ts : List Token} (h : TypeTokens ts) : ts ≠ [] := by
  rintro rfl
  obtain ⟨t, ht, -⟩ := h.head
  cases ht

/-- Behind the tokens of a type. -/
theorem beside {ts us : List Token} (h : TypeTokens ts) (hus : us.IsChain Beside)
    (hhead : ∀ u ∈ us.head?, u ∈ behindType) : (ts ++ us).IsChain Beside := by
  rw [List.isChain_append]
  refine ⟨h.chain, hus, fun a ha b hb ↦ ?_⟩
  obtain ⟨t, ht, hlast⟩ := h.last
  obtain rfl : t = a := Option.some.inj (ht.symm.trans ha)
  rcases hlast with hid | hend
  · exact .word hid (hhead b hb)
  · exact .ends hend (hhead b hb)

/-- In front of the tokens of a type. -/
theorem opened {o : Token} {ts us : List Token} (h : TypeTokens ts)
    (ho : o ∈ typeOpeners) (hus : (ts ++ us).IsChain Beside) :
    (o :: (ts ++ us)).IsChain Beside := by
  rw [List.isChain_cons]
  refine ⟨fun b hb ↦ ?_, hus⟩
  obtain ⟨t, ht, hhead⟩ := h.head
  rw [List.head?_append_of_ne_nil _ h.ne_nil] at hb
  obtain rfl : t = b := Option.some.inj (ht.symm.trans hb)
  exact .opens ho hhead

theorem opened_self {o : Token} {ts : List Token} (h : TypeTokens ts) (ho : o ∈ typeOpeners) :
    (o :: ts).IsChain Beside := by
  have hopened := h.opened ho (show (ts ++ []).IsChain Beside by simpa using h.chain)
  rwa [List.append_nil] at hopened

theorem append_op {ts : List Token} (h : TypeTokens ts) {o : Token} (ho : TypeToken o)
    (hbehind : o ∈ behindType) (hend : o ∈ typeEnds) : TypeTokens (ts ++ [o]) where
  token := by
    intro t ht
    rcases List.mem_append.mp ht with ht | ht
    · exact h.token t ht
    · rw [List.mem_singleton.mp ht]
      exact ho
  chain := h.beside (.singleton o) (by simpa using hbehind)
  head := by
    rw [List.head?_append_of_ne_nil _ h.ne_nil]
    exact h.head
  last := ⟨o, by simp, .inr hend⟩

/-- Types with commas between them. -/
theorem comma {ts us : List Token} (ht : TypeTokens ts) (hu : TypeTokens us) :
    TypeTokens (ts ++ opToken "," :: us) where
  token := by
    intro t h
    rcases List.mem_append.mp h with h | h
    · exact ht.token t h
    · rcases List.mem_cons.mp h with rfl | h
      · exact typeToken_op "," (by decide)
      · exact hu.token t h
  chain := ht.beside (hu.opened_self (by decide)) (by simp [behindType])
  head := by
    rw [List.head?_append_of_ne_nil _ ht.ne_nil]
    exact ht.head
  last := by
    rw [List.getLast?_append_of_ne_nil _ (by simp), List.getLast?_cons_of_ne_nil hu.ne_nil]
    exact hu.last

/-- Types in brackets. -/
theorem enclosed {ts : List Token} (h : TypeTokens ts) {o c : Token} (ho : o ∈ typeOpeners)
    (hc : c ∈ behindType) : (o :: (ts ++ [c])).IsChain Beside :=
  h.opened ho (h.beside (.singleton c) (by simpa using hc))

end TypeTokens

/-- A word in front of an operator and more. -/
theorem typeTokens_word {w : Token} (hw : TypeToken w) (hkind : w.kind = .id) {ts : List Token}
    (htoken : ∀ t ∈ ts, TypeToken t) (hchain : ts.IsChain Beside)
    (hhead : ∀ t ∈ ts.head?, t ∈ behindType)
    (hlast : ∀ t ∈ ts.getLast?, t.kind = .id ∨ t ∈ typeEnds) : TypeTokens (w :: ts) where
  token := by
    intro t ht
    rcases List.mem_cons.mp ht with rfl | ht
    · exact hw
    · exact htoken t ht
  chain := by
    rw [List.isChain_cons]
    exact ⟨fun b hb ↦ .word hkind (hhead b hb), hchain⟩
  head := ⟨w, rfl, .inl hkind⟩
  last := by
    cases ts with
    | nil => exact ⟨w, rfl, .inl hkind⟩
    | cons t ts =>
        rw [List.getLast?_cons_cons]
        obtain ⟨u, hu⟩ :=
          Option.isSome_iff_exists.mp (List.getLast?_isSome.mpr (by simp : t :: ts ≠ []))
        exact ⟨u, hu, hlast u hu⟩

/-! ## The tokens of each form -/

theorem typeToken_word {w : List Char} (h : lexeme w = some (.token ⟨.id, w⟩)) :
    TypeToken ⟨.id, w⟩ := by
  refine ⟨h, ?_, .inl rfl⟩
  intro heq
  cases heq

theorem nameTokens_tail (ws : List (List Char))
    (h : ∀ w ∈ ws, lexeme w = some (.token ⟨.id, w⟩)) :
    let ts := ws.flatMap fun w ↦ [opToken ".", ⟨.id, w⟩]
    (∀ t ∈ ts, TypeToken t) ∧ ts.IsChain Beside ∧ (∀ t ∈ ts.head?, t ∈ behindType) ∧
      ∀ t ∈ ts.getLast?, t.kind = .id ∨ t ∈ typeEnds := by
  induction ws with
  | nil => simp
  | cons w ws ih =>
      obtain ⟨htoken, hchain, hhead, hlast⟩ := ih fun w hw ↦ h w (List.mem_cons_of_mem _ hw)
      have hword := typeToken_word (h w List.mem_cons_self)
      have htail := typeTokens_word hword rfl htoken hchain hhead hlast
      have hpoint : (opToken "." :: ⟨.id, w⟩ :: _).IsChain Beside :=
        htail.opened_self (by decide)
      dsimp only
      rw [List.flatMap_cons, List.cons_append, List.cons_append, List.nil_append]
      refine ⟨?_, hpoint, by simp [behindType], ?_⟩
      · intro t ht
        rcases List.mem_cons.mp ht with rfl | ht
        · exact typeToken_op "." (by decide)
        · exact htail.token t ht
      · intro t ht
        rw [List.getLast?_cons_of_ne_nil htail.ne_nil] at ht
        obtain ⟨u, hu, hend⟩ := htail.last
        obtain rfl : u = t := Option.some.inj (hu.symm.trans ht)
        exact hend

theorem typeTokens_name {name : List Char} (h : TypeExpr.IsTypeName name) :
    TypeTokens (nameTokens name) := by
  unfold nameTokens
  cases hsplit : name.splitOn '.' with
  | nil => exact absurd hsplit (List.splitOn_ne_nil _ _)
  | cons w ws =>
      have hwords := h.1
      rw [hsplit] at hwords
      obtain ⟨htoken, hchain, hhead, hlast⟩ :=
        nameTokens_tail ws fun w hw ↦ hwords w (List.mem_cons_of_mem _ hw)
      exact typeTokens_word (typeToken_word (hwords w List.mem_cons_self)) rfl htoken hchain hhead
        hlast

theorem spelled_digits {ds : List Char} (hne : ds ≠ []) (hds : ∀ d ∈ ds, d.isDigit = true) :
    Spelled ⟨.int, ds⟩ := by
  cases ds with
  | nil => exact absurd rfl hne
  | cons c s =>
      have hc := hds c List.mem_cons_self
      have htake : (c :: s).takeWhile Char.isDigit = c :: s := List.takeWhile_eq_self_iff.mpr hds
      have hhex : isHexPrefix (c :: s) = false := by
        rw [Bool.eq_false_iff]
        intro hhex
        unfold isHexPrefix at hhex
        split at hhex
        · rename_i x r heq
          injection heq with _ heq
          subst heq
          have hx := hds x (by simp)
          simp only [Bool.or_eq_true, beq_iff_eq] at hhex
          rcases hhex with rfl | rfl
          · cases hx
          · cases hx
        · cases hhex
      have hnumber : number (c :: s) = some ⟨.int, c :: s⟩ := by
        have hdecimal : decimal (c :: s) = some ⟨.int, c :: s⟩ := by
          simp [decimal, htake, fraction, exponent]
        simp [number, hhex, hdecimal]
      rw [Spelled, lexeme_of_digit hc, hnumber]
      rfl

namespace TypeExpr

open tokens (tokensAll)

theorem typeTokens_all {ts : List TypeExpr} (hne : ts ≠ []) (h : ∀ t ∈ ts, TypeTokens t.tokens) :
    TypeTokens (tokensAll ts) := by
  induction ts with
  | nil => exact absurd rfl hne
  | cons t ts ih =>
      have ht := h t List.mem_cons_self
      cases ts with
      | nil => exact ht
      | cons u us =>
          exact ht.comma (ih (by simp) fun t ht ↦ h t (List.mem_cons_of_mem _ ht))

theorem formed_parts {t : TypeExpr} (h : ∀ u ∈ t.completed, u.Formed) :
    t.Formed ∧ ∀ v ∈ t.parts, ∀ u ∈ v.completed, u.Formed :=
  ⟨h t t.mem_completed_self, fun v hv u hu ↦ h u (mem_completed.mpr (.inr ⟨v, hv, hu⟩))⟩

/-- The tokens in brackets behind a word. -/
theorem typeTokens_bracket {w : List Token} (hw : TypeTokens w) {ts : List Token}
    (h : TypeTokens ts) : TypeTokens (w ++ (opToken "<" :: (ts ++ [opToken ">"]))) where
  token := by
    intro t ht
    simp only [List.mem_append, List.mem_cons, List.not_mem_nil, or_false] at ht
    rcases ht with ht | rfl | ht | rfl
    · exact hw.token t ht
    · exact typeToken_op "<" (by decide)
    · exact h.token t ht
    · exact typeToken_op ">" (by decide)
  chain := hw.beside (h.enclosed (by decide) (by decide)) (by simp [behindType])
  head := by
    rw [List.head?_append_of_ne_nil _ hw.ne_nil]
    exact hw.head
  last := ⟨opToken ">", by simp [List.getLast?_append, List.getLast?_cons], .inr (by decide)⟩

theorem typeTokens_function {w : Token} (hw : TypeToken w) (hkind : w.kind = .id)
    {rs ps : List Token} (hr : TypeTokens rs) (hp : ps = [] ∨ TypeTokens ps) :
    TypeTokens (w :: opToken "<" :: (rs ++
      (opToken "(" :: (ps ++ [opToken ")", opToken ">"])))) := by
  have hends : [opToken ")", opToken ">"].IsChain Beside := by
    rw [List.isChain_cons_cons]
    exact ⟨.ends (by decide) (by decide), .singleton _⟩
  have hparams : (opToken "(" :: (ps ++ [opToken ")", opToken ">"])).IsChain Beside := by
    rcases hp with rfl | hp
    · exact List.isChain_cons_cons.mpr ⟨.empty, hends⟩
    · exact hp.opened (by decide) (hp.beside hends (by simp [behindType]))
  have hptoken : ∀ t ∈ ps, TypeToken t := by
    rcases hp with rfl | hp
    · simp
    · exact hp.token
  refine typeTokens_word hw hkind ?_ (hr.opened (by decide) (hr.beside hparams ?_)) ?_ ?_
  · intro t ht
    simp only [List.mem_append, List.mem_cons, List.not_mem_nil, or_false] at ht
    rcases ht with rfl | ht | rfl | ht | rfl | rfl
    · exact typeToken_op "<" (by decide)
    · exact hr.token t ht
    · exact typeToken_op "(" (by decide)
    · exact hptoken t ht
    · exact typeToken_op ")" (by decide)
    · exact typeToken_op ">" (by decide)
  · simp [behindType]
  · simp [behindType]
  · simp [List.getLast?_append, List.getLast?_cons, typeEnds]

theorem typeTokens_tuple {ts : List Token} (h : TypeTokens ts) :
    TypeTokens (opToken "(" :: (ts ++ [opToken ")"])) where
  token := by
    intro t ht
    simp only [List.mem_append, List.mem_cons, List.not_mem_nil, or_false] at ht
    rcases ht with rfl | ht | rfl
    · exact typeToken_op "(" (by decide)
    · exact h.token t ht
    · exact typeToken_op ")" (by decide)
  chain := h.enclosed (by decide) (by decide)
  head := ⟨opToken "(", rfl, .inr rfl⟩
  last := ⟨opToken ")", by simp [List.getLast?_cons], .inr (by decide)⟩

theorem isDigit_toDigits (n : ℕ) : ∀ d ∈ Nat.toDigits 10 n, d.isDigit = true := fun d hd ↦
  Nat.isDigit_of_mem_toDigits (by omega) le_rfl hd

theorem typeTokens_array {ts : List Token} (h : TypeTokens ts) (count : ℕ) :
    TypeTokens (ts ++ [opToken "[", ⟨.int, Nat.toDigits 10 count⟩, opToken "]"]) where
  token := by
    intro t ht
    simp only [List.mem_append, List.mem_cons, List.not_mem_nil, or_false] at ht
    rcases ht with ht | rfl | rfl | rfl
    · exact h.token t ht
    · exact typeToken_op "[" (by decide)
    · refine ⟨spelled_digits Nat.toDigits_ne_nil (isDigit_toDigits count), ?_, .inr (.inr rfl)⟩
      intro heq
      cases heq
    · exact typeToken_op "]" (by decide)
  chain := by
    refine h.beside ?_ (by simp [behindType])
    rw [List.isChain_cons_cons, List.isChain_cons_cons]
    exact ⟨.length rfl, .lengthEnd rfl, .singleton _⟩
  head := by
    rw [List.head?_append_of_ne_nil _ h.ne_nil]
    exact h.head
  last := ⟨opToken "]", by simp [List.getLast?_append], .inr (by decide)⟩

theorem typeTokens {t : TypeExpr} (h : ∀ u ∈ t.completed, u.Formed) : TypeTokens t.tokens := by
  induction t using parts_induction with
  | _ t ih =>
      obtain ⟨hself, hparts⟩ := formed_parts h
      have ih := fun u hu ↦ ih u hu (hparts u hu)
      cases t with
      | named name => exact typeTokens_name hself
      | generic name items =>
          have hall := typeTokens_bracket (typeTokens_name hself.1) (typeTokens_all hself.2.2 ih)
          simpa [tokens] using hall
      | function closure params result =>
          have hword : TypeToken (wordToken (if closure then "closure" else "func")) := by
            cases closure
            · exact typeToken_word (by decide)
            · exact typeToken_word (by decide)
          have hparams : tokensAll params = [] ∨ TypeTokens (tokensAll params) := by
            cases params with
            | nil => exact .inl rfl
            | cons p ps =>
                exact .inr (typeTokens_all (by simp) fun u hu ↦ ih u (List.mem_cons_of_mem _ hu))
          have hall := typeTokens_function hword rfl (ih result List.mem_cons_self) hparams
          simpa [tokens] using hall
      | tuple items =>
          have hall := typeTokens_tuple (typeTokens_all hself ih)
          simpa [tokens] using hall
      | slice t =>
          have hword : TypeTokens [wordToken "Slice"] :=
            typeTokens_word (typeToken_word (by decide)) rfl (by simp) .nil (by simp) (by simp)
          have hall := typeTokens_bracket hword (ih t (by simp [parts]))
          simpa [tokens] using hall
      | const t => exact hself.elim
      | pointer t =>
          exact (ih t (by simp [parts])).append_op (typeToken_op "*" (by decide)) (by decide)
            (by decide)
      | array t count => exact typeTokens_array (ih t (by simp [parts])) count

end TypeExpr

namespace SourceType

variable (t : SourceType)

/-- The tokens that the lexer finds in the text. -/
def lexed : List Token := joinClosers t.type.tokens

theorem text_eq : t.type.text = lexer.render (t.lexed.map Lexeme.token) := by
  rw [TypeExpr.text, ← joinClosers_text]
  simp [Tokenizer.render, lexed, List.flatMap_map]
  rfl

/-- Lexing the text of a type. -/
theorem lex_text : (lex t.type.text).map (List.map Prod.fst) =
    if t.lexed.length + 1 ≤ tokenLimit then some (t.lexed ++ [⟨.eof, []⟩]) else none := by
  have htokens := TypeExpr.typeTokens t.formed
  have hspelled : ∀ u ∈ t.type.tokens, Spelled u := fun u hu ↦ (htokens.token u hu).spelled
  have hfits := joinClosers_fits hspelled (fun hu ↦ (htokens.token _ hu).single rfl) htokens.chain
  have hend := allEnd_of_fits (spelled_joined hspelled) hfits
  have hprinted : ∀ c ∈ t.type.text, Tree.isPrinted c = true := by
    intro c hc
    obtain ⟨u, hu, hcu⟩ := List.mem_flatMap.mp hc
    exact (htokens.token u hu).printed c hcu
  have hlexemes : lexemes t.type.text = some (t.lexed.map Lexeme.token) := by
    rw [lexemes, Tree.source_printed hprinted, t.text_eq]
    exact hend.scan
  have htokensOf : tokensOf (t.lexed.map Lexeme.token) = t.lexed := by
    simp [tokensOf, List.filterMap_map]
  rw [lex_of_lexemes hlexemes, htokensOf]

end SourceType

end TinyCPlus.Compiler
