import TinyCPlus.Compiler.Statement

/-!
# Switches (`check_switch`, `statement` for `N_SWITCH`)

A switch becomes a chain of `if` lines in C.  The default goes to its end, and a switch
that covers its enumeration has a guard in front of it, so that its last case is a plain
`else`.
-/

namespace TinyCPlus.Compiler

/-! ## Values -/

/-- The integer types, with `bool`, `char` and enumerations. -/
inductive Scalar where
  | bool | i8 | u8 | i16 | u16 | i32 | u32 | i64 | u64 | char | enum
deriving DecidableEq, Repr

namespace Scalar

/-- `promote` -/
def promote : Scalar → Scalar
  | enum | bool | char | i8 | u8 | i16 | u16 => i32
  | i32 => i32
  | u32 => u32
  | i64 => i64
  | u64 => u64

/-- The common type of two promoted ones is the later one. -/
def rank : Scalar → ℕ
  | u32 => 1
  | i64 => 2
  | u64 => 3
  | _ => 0

/-- `numeric_common` -/
def common (a b : Scalar) : Scalar :=
  if b.promote.rank < a.promote.rank then a.promote else b.promote

/-- The value after a conversion to a promoted type. -/
def convert (k : Scalar) (n : ℤ) : ℤ :=
  match k with
  | u32 => n % 2 ^ 32
  | u64 => n % 2 ^ 64
  | i64 => n.bmod (2 ^ 64)
  | _ => n.bmod (2 ^ 32)

/-- `==` on integers. -/
def equal (a : Scalar) (n : ℤ) (b : Scalar) (m : ℤ) : Bool :=
  (common a b).convert n == (common a b).convert m

end Scalar

/-- The first `n` bytes are the same. -/
def memcmpEqual (n : ℕ) (a b : List UInt8) : Bool := a.take n == b.take n

/-- `tc_string_equal` -/
def tcStringEqual (a b : List UInt8) : Bool :=
  a.length == b.length && (a.length == 0 || memcmpEqual a.length a b)

theorem tcStringEqual_iff (a b : List UInt8) : tcStringEqual a b = true ↔ a = b := by
  constructor
  · intro h
    rw [tcStringEqual, Bool.and_eq_true, Bool.or_eq_true, beq_iff_eq, beq_iff_eq, memcmpEqual,
      beq_iff_eq] at h
    obtain ⟨hlength, hzero | hbytes⟩ := h
    · have hb : b.length = 0 := hlength.symm.trans hzero
      rw [List.length_eq_zero_iff.mp hzero, List.length_eq_zero_iff.mp hb]
    · rwa [List.take_length, hlength, List.take_length] at hbytes
  · rintro rfl
    simp [tcStringEqual, memcmpEqual]

/-- The type of the subject; an enumeration has the values of its members. -/
inductive SubjectType where
  | scalar (kind : Scalar)
  | enum (members : List ℤ)
  | string

namespace SubjectType

def Value : SubjectType → Type
  | scalar _ | enum _ => ℤ
  | string => List UInt8

def isEnum : SubjectType → Bool
  | enum _ => true
  | scalar _ | string => false

end SubjectType

/-- The expressions that `case_key` takes: literals, negated integers and members of
enumerations. -/
inductive Label where
  | literal (kind : Scalar) (value : ℤ)
  | negative (kind : Scalar) (value : ℤ)
  | string (bytes : List UInt8)
  | member (value : ℤ)
deriving DecidableEq

namespace Label

/-- The type and the value of a label that is a number. -/
def number : Label → Option (Scalar × ℤ)
  | literal kind value => some (kind, value)
  | negative kind value => some (kind.promote, kind.promote.convert (-value))
  | member value => some (.enum, value)
  | string _ => none

/-- The label is equal to a subject, in the sense of `==`, and of contents for strings. -/
def Matches : (t : SubjectType) → t.Value → Label → Prop
  | .scalar kind, v, l => ∃ x ∈ l.number, kind.equal v x.1 x.2 = true
  | .enum _, v, l => ∃ x ∈ l.number, Scalar.enum.equal v x.1 x.2 = true
  | .string, v, l => l = string v

end Label

/-! ## Switches -/

/-- A case has at least one label; its body is a block of its own. -/
inductive Case (M : Type → Type) where
  | case (label : Label) (labels : List Label) (body : M Outcome)
  | fallback (body : M Outcome)

namespace Case

variable {M : Type → Type}

def args : Case M → List Label
  | case label labels _ => label :: labels
  | fallback _ => []

def body : Case M → M Outcome
  | case _ _ body | fallback body => body

/-- `item->text` -/
def text : Case M → Bool
  | case .. => false
  | fallback _ => true

end Case

structure Switch (M : Type → Type) where
  type : SubjectType
  subject : M type.Value
  body : List (Case M)

/-- `require` and the checks of `check_switch` on a label. -/
def checkLabel : SubjectType → Label → Bool
  | .scalar _, l => l.number.isSome
  | .enum _, .member _ => true
  | .enum _, _ => false
  | .string, .string _ => true
  | .string, _ => false

/-- `check_switch` and the parser's limit on defaults; labels that occur twice are rejected
as well, which the lowering does not rely on. -/
def checkSwitch {M : Type → Type} (n : Switch M) : Bool :=
  n.body.all (fun item ↦ item.args.all (checkLabel n.type)) &&
    decide (n.body.countP Case.text ≤ 1) &&
    match n.type with
    | .enum members => n.body.any Case.text ||
        members.all fun m ↦ n.body.any fun item ↦ item.args.contains (.member m)
    | .scalar _ | .string => true

/-! ## The lowered code -/

/-- A line of the lowered code: a constant of its own, the guard, the parts of an `if`, and
a block in braces. -/
inductive Line (M : Type → Type) where
  | constant (label : Label)
  | panicUnless (labels : List Label)
  | ifAny (labels : List Label)
  | elseIfAny (labels : List Label)
  | elseLine
  | block (body : M Outcome)

section Lowering

variable {M : Type → Type}

/-- `expression` puts the operand of a sign into a constant. -/
def constantLine : Label → Option (Line M)
  | .negative kind value => some (.constant (.literal kind value))
  | .literal .. | .string _ | .member _ => none

/-- What the first loop over the cases finds. -/
structure Collected (M : Type → Type) where
  fallback : Option (M Outcome)
  last : Option ℕ
  guard : Bool
  all : List Label
  constants : List (Line M)

/-- The first loop, from the case with the number `i`. -/
def collect : ℕ → Collected M → List (Case M) → Collected M
  | _, c, [] => c
  | i, c, .fallback body :: items =>
      collect (i + 1) { c with fallback := some body, guard := false } items
  | i, c, .case label labels _ :: items =>
      collect (i + 1)
        { c with
          last := some i
          all := c.all ++ label :: labels
          constants := c.constants ++ (label :: labels).filterMap constantLine } items

/-- The second loop; `first` as long as no block is written. -/
def chainLines (c : Collected M) : ℕ → Bool → List (Case M) → List (Line M)
  | _, _, [] => []
  | i, first, .fallback _ :: items => chainLines c (i + 1) first items
  | i, first, .case label labels body :: items =>
      (if c.guard = true ∧ c.last = some i ∧ first = false then [.elseLine]
        else if c.guard = true ∧ c.last = some i then []
        else if first then [.ifAny (label :: labels)] else [.elseIfAny (label :: labels)]) ++
      .block body :: chainLines c (i + 1) false items

def fallbackLines (fallback : Option (M Outcome)) (first : Bool) : List (Line M) :=
  match fallback with
  | some body => (if first then [] else [.elseLine]) ++ [.block body]
  | none => []

/-- The lines behind the temporary for the subject. -/
def switchLines (n : Switch M) : List (Line M) :=
  let c := collect 0 ⟨none, none, n.type.isEnum, [], []⟩ n.body
  c.constants ++ (if c.guard = true ∧ c.last.isSome then [.panicUnless c.all] else []) ++
    chainLines c 0 true n.body ++ fallbackLines c.fallback c.last.isNone

/-! ## What the lines mean in C -/

/-- The comparison of the subject with a label. -/
def test : (t : SubjectType) → t.Value → Label → Bool
  | .scalar kind, v, l => l.number.any fun x ↦ kind.equal v x.1 x.2
  | .enum _, v, l => l.number.any fun x ↦ Scalar.enum.equal v x.1 x.2
  | .string, v, .string bytes => tcStringEqual v bytes
  | .string, _, _ => false

variable [Monad M]

/-- What follows a block runs when the block ends in the normal way. -/
def andThen (body rest : M Outcome) : M Outcome := do
  match ← body with
  | .normal => rest
  | o => pure o

/-- Runs the lines.  `chain` is whether a branch of the `if` in front has been taken, where
there is one; an `else` without an `if` is no C. -/
def execLines (holds : Label → Bool) : Option Bool → List (Line M) → Option (M Outcome)
  | _, [] => some (pure .normal)
  | _, .constant _ :: ls => execLines holds none ls
  | _, .panicUnless labels :: ls =>
      if labels.any holds then execLines holds none ls else some (pure .stop)
  | _, .ifAny labels :: .block body :: ls =>
      if labels.any holds then (execLines holds (some true) ls).map (andThen body)
      else execLines holds (some false) ls
  | some taken, .elseIfAny labels :: .block body :: ls =>
      if taken = false ∧ labels.any holds then (execLines holds (some true) ls).map (andThen body)
      else execLines holds (some taken) ls
  | some taken, .elseLine :: .block body :: ls =>
      if taken then execLines holds none ls else (execLines holds none ls).map (andThen body)
  | _, .block body :: ls => (execLines holds none ls).map (andThen body)
  | _, _ => none

/-- The subject goes into a temporary, and the lines run on its value. -/
def runSwitch (n : Switch M) : M (Option Outcome) := do
  let v ← n.subject
  match execLines (test n.type v) none (switchLines n) with
  | some run => do
      let o ← run
      pure (some o)
  | none => pure none

/-- What a switch is for: the first case with a label that matches, else the default, else a
panic for an enumeration. -/
def Switch.Selects (n : Switch M) (v : n.type.Value) (run : M Outcome) : Prop :=
  (∃ before item after, n.body = before ++ item :: after ∧ (∃ l ∈ item.args, l.Matches n.type v) ∧
    (∀ other ∈ before, ∀ l ∈ other.args, ¬ l.Matches n.type v) ∧ run = item.body) ∨
  (∀ item ∈ n.body, ∀ l ∈ item.args, ¬ l.Matches n.type v) ∧
    ((∃ body, .fallback body ∈ n.body ∧ run = body) ∨
      (∀ body, .fallback body ∉ n.body) ∧
        run = pure (if n.type.isEnum then .stop else .normal))

end Lowering

theorem string_eq_iff (a b : List UInt8) : Label.string a = .string b ↔ b = a := by
  rw [Label.string.injEq]
  exact eq_comm

theorem test_iff (t : SubjectType) (v : t.Value) (l : Label) :
    test t v l = true ↔ l.Matches t v := by
  cases t with
  | scalar kind =>
      rw [test, Label.Matches]
      cases l.number <;> simp
  | enum members =>
      rw [test, Label.Matches]
      cases l.number <;> simp
  | string =>
      cases l with
      | string bytes =>
          exact (tcStringEqual_iff v bytes).trans (string_eq_iff bytes v).symm
      | _ => simp [test, Label.Matches]

/-! ## The first loop -/

section Loops

variable {M : Type → Type} {items : List (Case M)} {c : Collected M} {i : ℕ}

theorem collect_guard : (collect i c items).guard = (c.guard && !items.any Case.text) := by
  induction items generalizing i c with
  | nil => simp [collect]
  | cons item items ih => cases item <;> simp [collect, ih, Case.text]

theorem collect_all : (collect i c items).all = c.all ++ items.flatMap Case.args := by
  induction items generalizing i c with
  | nil => simp [collect]
  | cons item items ih => cases item <;> simp [collect, ih, Case.args]

theorem collect_last_isNone :
    (collect i c items).last.isNone = (c.last.isNone && items.all Case.text) := by
  induction items generalizing i c with
  | nil => simp [collect]
  | cons item items ih => cases item <;> simp [collect, ih, Case.text]

theorem collect_last (h : items.any Case.text = false) (hne : items ≠ []) :
    (collect i c items).last = some (i + items.length - 1) := by
  induction items generalizing i c with
  | nil => exact absurd rfl hne
  | cons item items ih =>
      rw [List.any_cons, Bool.or_eq_false_iff] at h
      cases item with
      | fallback body => cases h.1
      | case label labels body =>
          rw [collect]
          cases items with
          | nil => rfl
          | cons next items =>
              rw [ih h.2 (List.cons_ne_nil _ _)]
              congr 1
              simp only [List.length_cons]
              omega

theorem collect_fallback_some {body : M Outcome} (h : (collect i c items).fallback = some body) :
    .fallback body ∈ items ∨ c.fallback = some body := by
  induction items generalizing i c with
  | nil => exact Or.inr h
  | cons item items ih =>
      cases item with
      | case label labels b =>
          rcases ih h with hmem | hold
          · exact Or.inl (List.mem_cons_of_mem _ hmem)
          · exact Or.inr hold
      | fallback b =>
          rcases ih h with hmem | hold
          · exact Or.inl (List.mem_cons_of_mem _ hmem)
          · cases hold
            exact Or.inl List.mem_cons_self

theorem collect_fallback_none (h : (collect i c items).fallback = none) :
    c.fallback = none ∧ ∀ body, .fallback body ∉ items := by
  induction items generalizing i c with
  | nil => exact ⟨h, fun body ↦ List.not_mem_nil⟩
  | cons item items ih =>
      cases item with
      | case label labels b =>
          obtain ⟨hold, hmem⟩ := ih h
          refine ⟨hold, fun body hbody ↦ ?_⟩
          rcases List.mem_cons.mp hbody with hhead | htail
          · cases hhead
          · exact hmem body htail
      | fallback b => cases (ih h).1

theorem collect_constants (h : ∀ x ∈ c.constants, ∃ l, x = .constant l) :
    ∀ x ∈ (collect i c items).constants, ∃ l, x = .constant l := by
  induction items generalizing i c with
  | nil => exact h
  | cons item items ih =>
      cases item with
      | fallback b => exact ih h
      | case label labels b =>
          apply ih
          intro x hx
          rcases List.mem_append.mp hx with hx | hx
          · exact h x hx
          · obtain ⟨l, -, hl⟩ := List.mem_filterMap.mp hx
            cases l with
            | negative kind value =>
                cases hl
                exact ⟨_, rfl⟩
            | _ => cases hl

end Loops

/-! ## The chain -/

section Chain

variable {M : Type → Type} {holds : Label → Bool}

/-- The body of the first case with a label that holds. -/
def pick (holds : Label → Bool) (items : List (Case M)) : Option (M Outcome) :=
  (items.find? fun item ↦ item.args.any holds).map Case.body

theorem pick_case (label : Label) (labels : List Label) (body : M Outcome)
    (items : List (Case M)) : pick holds (.case label labels body :: items) =
      if (label :: labels).any holds then some body else pick holds items := by
  rw [pick, List.find?_cons, Case.args]
  cases hany : (label :: labels).any holds <;> rfl

variable [Monad M]

/-- A branch is taken where no branch in front of it has been. -/
theorem execLines_branch {first taken : Bool} (hfirst : first = true → taken = false)
    (labels : List Label) (body : M Outcome) (ls : List (Line M)) :
    execLines holds (if first then none else some taken)
      ((if first then .ifAny labels else .elseIfAny labels) :: .block body :: ls) =
      if taken = false ∧ labels.any holds then (execLines holds (some true) ls).map (andThen body)
      else execLines holds (some taken) ls := by
  cases first with
  | true =>
      rw [hfirst rfl, if_pos rfl, if_pos rfl, execLines]
      simp only [true_and]
  | false =>
      rw [if_neg Bool.false_ne_true, if_neg Bool.false_ne_true, execLines]

theorem execLines_constants {cs ls : List (Line M)} (h : ∀ x ∈ cs, ∃ l, x = .constant l) :
    execLines holds none (cs ++ ls) = execLines holds none ls := by
  induction cs with
  | nil => rfl
  | cons x cs ih =>
      obtain ⟨l, rfl⟩ := h x List.mem_cons_self
      exact ih fun y hy ↦ h y (List.mem_cons_of_mem _ hy)

variable [LawfulMonad M]

theorem andThen_normal (body : M Outcome) : andThen body (pure .normal) = body := by
  have hrest : ∀ o : Outcome, (match o with
      | .normal => pure .normal
      | o => pure o : M Outcome) = pure o := by
    intro o
    cases o <;> rfl
  rw [andThen]
  simp only [hrest, bind_pure]

/-- The chain without a guard takes the first case that holds, or goes on to the default;
by induction on the cases that are left, for an open chain with a branch that is taken or
not. -/
theorem execLines_chain {c : Collected M} (hguard : c.guard = false)
    (fallback : Option (M Outcome)) (items : List (Case M)) (i : ℕ) (first taken : Bool)
    (hfirst : first = true → taken = false) :
    execLines holds (if first then none else some taken)
      (chainLines c i first items ++ fallbackLines fallback (first && items.all Case.text)) =
      some (if taken then pure .normal
        else (pick holds items).getD (fallback.getD (pure .normal))) := by
  induction items generalizing i first taken with
  | nil =>
      rw [chainLines, List.nil_append, List.all_nil, Bool.and_true]
      cases fallback with
      | none => cases taken <;> rfl
      | some body =>
          have hbody := andThen_normal body
          cases first with
          | true =>
              rw [hfirst rfl]
              exact congrArg some hbody
          | false =>
              cases taken with
              | true => rfl
              | false => exact congrArg some hbody
  | cons item items ih =>
      cases item with
      | fallback body => exact ih (i + 1) first taken hfirst
      | case label labels body =>
          have hrest : ∀ taken', execLines holds (some taken')
              (chainLines c (i + 1) false items ++ fallbackLines fallback false) =
              some (if taken' then pure .normal
                else (pick holds items).getD (fallback.getD (pure .normal))) :=
            fun taken' ↦ ih (i + 1) false taken' fun h ↦ by cases h
          have hlines : chainLines c i first (.case label labels body :: items) =
              (if first then .ifAny (label :: labels) else .elseIfAny (label :: labels)) ::
                .block body :: chainLines c (i + 1) false items := by
            rw [chainLines, hguard]
            cases first <;> simp
          have hclosed : (first && (Case.case label labels body :: items).all Case.text) = false := by
            cases first <;> rfl
          rw [hlines, hclosed, pick_case, List.cons_append, List.cons_append,
            execLines_branch hfirst, hrest, hrest]
          cases taken with
          | true => simp
          | false =>
              cases (label :: labels).any holds with
              | true => exact congrArg some (andThen_normal body)
              | false => rfl

/-- With the guard, some case holds, and the last one needs no test. -/
theorem execLines_guarded {c : Collected M} (hguard : c.guard = true) {items : List (Case M)}
    (htext : items.any Case.text = false) (hne : items ≠ []) {i : ℕ}
    (hlast : c.last = some (i + items.length - 1)) (first taken : Bool)
    (hfirst : first = true → taken = false) (hholds : taken = true ∨ (pick holds items).isSome) :
    execLines holds (if first then none else some taken) (chainLines c i first items) =
      some (if taken then pure .normal else (pick holds items).getD (pure .normal)) := by
  induction items generalizing i first taken with
  | nil => exact absurd rfl hne
  | cons item items ih =>
      rw [List.any_cons, Bool.or_eq_false_iff] at htext
      cases item with
      | fallback body => cases htext.1
      | case label labels body =>
          rw [pick_case] at hholds ⊢
          cases items with
          | nil =>
              have hi : c.last = some i := hlast
              have hone : taken = true ∨ (label :: labels).any holds = true := by
                refine hholds.imp_right fun hsome ↦ ?_
                by_contra hany
                rw [if_neg hany] at hsome
                cases hsome
              have hlines : chainLines c i first [.case label labels body] =
                  (if first then [] else [.elseLine]) ++ [.block body] := by
                rw [chainLines, chainLines, hguard, hi]
                cases first <;> simp
              rw [hlines]
              cases taken with
              | true =>
                  cases first with
                  | true => cases hfirst rfl
                  | false => rfl
              | false =>
                  rw [if_pos (hone.resolve_left Bool.false_ne_true)]
                  have hbody := congrArg some (andThen_normal body)
                  cases first with
                  | true => exact hbody
                  | false => exact hbody
          | cons next items =>
              have hother : c.last ≠ some i := by
                rw [hlast, List.length_cons, List.length_cons]
                intro h
                have hi := Option.some.inj h
                omega
              have hlast' : c.last = some (i + 1 + (next :: items).length - 1) := by
                rw [hlast, List.length_cons]
                congr 1
                omega
              have hrest : ∀ taken', taken' = true ∨ (pick holds (next :: items)).isSome →
                  execLines holds (some taken') (chainLines c (i + 1) false (next :: items)) =
                    some (if taken' then pure .normal
                      else (pick holds (next :: items)).getD (pure .normal)) :=
                fun taken' ↦ ih htext.2 (List.cons_ne_nil _ _) hlast' false taken'
                  fun h ↦ by cases h
              have hlines : chainLines c i first (.case label labels body :: next :: items) =
                  (if first then .ifAny (label :: labels) else .elseIfAny (label :: labels)) ::
                    .block body :: chainLines c (i + 1) false (next :: items) := by
                rw [chainLines, hguard]
                cases first <;> simp [hother]
              rw [hlines, execLines_branch hfirst]
              cases taken with
              | true =>
                  rw [if_neg (fun h ↦ by cases h.1), hrest true (.inl rfl)]
                  rfl
              | false =>
                  cases hany : (label :: labels).any holds with
                  | true =>
                      rw [if_pos ⟨rfl, rfl⟩, hrest true (.inl rfl)]
                      exact congrArg some (andThen_normal body)
                  | false =>
                      have hsome := hholds.resolve_left Bool.false_ne_true
                      rw [hany] at hsome
                      rw [if_neg (fun h ↦ by cases h.2), hrest false (.inr hsome)]
                      rfl

end Chain

/-! ## What a switch runs -/

section Selection

variable {M : Type → Type}

/-- The body that is picked is that of the first case with a label that matches. -/
theorem selects_of_pick [Monad M] {n : Switch M} {v : n.type.Value} {run : M Outcome}
    (h : pick (test n.type v) n.body = some run) : n.Selects v run := by
  obtain ⟨item, hfind, rfl⟩ := Option.map_eq_some_iff.mp h
  obtain ⟨hitem, before, after, hbody, hbefore⟩ := List.find?_eq_some_iff_append.mp hfind
  refine Or.inl ⟨before, item, after, hbody, ?_, ?_, rfl⟩
  · obtain ⟨l, hl, htest⟩ := List.any_eq_true.mp hitem
    exact ⟨l, hl, (test_iff _ _ _).mp htest⟩
  · intro other hother l hl hmatches
    have hnone := hbefore other hother
    rw [Bool.not_eq_true', List.any_eq_false] at hnone
    exact hnone l hl ((test_iff _ _ _).mpr hmatches)

theorem not_matches_of_pick {t : SubjectType} {v : t.Value} {items : List (Case M)}
    (h : pick (test t v) items = none) : ∀ item ∈ items, ∀ l ∈ item.args, ¬ l.Matches t v := by
  intro item hitem l hl hmatches
  have hnone := List.find?_eq_none.mp (Option.map_eq_none_iff.mp h) item hitem
  exact hnone (List.any_eq_true.mpr ⟨l, hl, (test_iff t v l).mpr hmatches⟩)

theorem any_text_iff {items : List (Case M)} :
    items.any Case.text = true ↔ ∃ body, .fallback body ∈ items := by
  rw [List.any_eq_true]
  constructor
  · rintro ⟨item, hitem, htext⟩
    cases item with
    | fallback body => exact ⟨body, hitem⟩
    | case label labels body => cases htext
  · rintro ⟨body, hbody⟩
    exact ⟨_, hbody, rfl⟩

theorem pick_isSome_iff {holds : Label → Bool} {items : List (Case M)} :
    (pick holds items).isSome = (items.flatMap Case.args).any holds := by
  rw [pick, Option.isSome_map, List.any_flatMap, Bool.eq_iff_iff, List.find?_isSome,
    List.any_eq_true]

variable [Monad M] [LawfulMonad M]

/-- On every value of the subject the lines run what the switch selects. -/
theorem execLines_selects (n : Switch M) (hcases : n.type.isEnum = true → n.body ≠ [])
    (v : n.type.Value) : ∃ run, n.Selects v run ∧
      execLines (test n.type v) none (switchLines n) = some run := by
  obtain ⟨c, hc⟩ : ∃ c, c = collect 0 ⟨none, none, n.type.isEnum, [], []⟩ n.body := ⟨_, rfl⟩
  have hguard : c.guard = (n.type.isEnum && !n.body.any Case.text) := hc ▸ collect_guard
  have hnone : c.last.isNone = n.body.all Case.text := hc ▸ collect_last_isNone
  have hconstants : ∀ x ∈ c.constants, ∃ l, x = .constant l :=
    hc ▸ collect_constants fun x hx ↦ absurd hx List.not_mem_nil
  rw [switchLines, ← hc, List.append_assoc, List.append_assoc, execLines_constants hconstants]
  cases hg : c.guard with
  | false =>
      have hrun := @execLines_chain _ (test n.type v) _ _ _ hg c.fallback n.body 0 true false
        fun _ ↦ rfl
      rw [if_neg (fun h ↦ by cases h.1), List.nil_append, hnone]
      refine ⟨_, ?_, hrun⟩
      cases hpick : pick (test n.type v) n.body with
      | some run => exact selects_of_pick hpick
      | none =>
          refine Or.inr ⟨not_matches_of_pick hpick, ?_⟩
          cases hfallback : c.fallback with
          | some body =>
              have hmem := collect_fallback_some (hc ▸ hfallback)
              exact Or.inl ⟨body, hmem.resolve_right (by simp), rfl⟩
          | none =>
              have hmem := (collect_fallback_none (hc ▸ hfallback)).2
              have htext : n.body.any Case.text = false := by
                rw [Bool.eq_false_iff, Ne, any_text_iff]
                exact fun ⟨body, hbody⟩ ↦ hmem body hbody
              rw [hg, htext, Bool.not_false, Bool.and_true] at hguard
              refine Or.inr ⟨hmem, ?_⟩
              rw [← hguard]
              rfl
  | true =>
      rw [hg, eq_comm, Bool.and_eq_true, Bool.not_eq_true'] at hguard
      obtain ⟨henum, htext⟩ := hguard
      have hne := hcases henum
      have hlast : c.last = some (0 + n.body.length - 1) := hc ▸ collect_last htext hne
      have hmem : ∀ body, .fallback body ∉ n.body := by
        intro body hbody
        rw [any_text_iff.mpr ⟨body, hbody⟩] at htext
        cases htext
      have hfallback : c.fallback = none := by
        rw [Option.eq_none_iff_forall_ne_some]
        intro body hbody
        rcases collect_fallback_some (hc ▸ hbody) with h | h
        · exact hmem body h
        · cases h
      have hall : c.all = n.body.flatMap Case.args := hc ▸ collect_all
      rw [if_pos ⟨rfl, by rw [hlast]; rfl⟩, hfallback, List.singleton_append, fallbackLines,
        List.append_nil, execLines, hall, ← pick_isSome_iff]
      cases hpick : pick (test n.type v) n.body with
      | some run =>
          have hrun := @execLines_guarded _ (test n.type v) _ _ _ hg _ htext hne _ hlast true
            false (fun _ ↦ rfl) (Or.inr (by rw [hpick]; rfl))
          rw [hpick] at hrun
          exact ⟨run, selects_of_pick hpick, hrun⟩
      | none =>
          refine ⟨_, Or.inr ⟨not_matches_of_pick hpick, Or.inr ⟨hmem, rfl⟩⟩, ?_⟩
          rw [henum]
          rfl

end Selection

/-- `case E.A: …  default: …  case E.B: …` -/
def exampleSwitch : Switch (StateM (List ℕ)) where
  type := .enum [0, 5]
  subject := fun log ↦ ((7 : ℤ), log ++ [0])
  body := [.case (.member 0) [] fun log ↦ (.normal, log ++ [1]),
    .fallback fun log ↦ (.ret, log ++ [2]), .case (.member 5) [] fun log ↦ (.brk, log)]

/-- `switch (e) \x7b\x7d` on an enumeration without members. -/
def emptySwitch : Switch Id where
  type := .enum []
  subject := (0 : ℤ)
  body := []

end TinyCPlus.Compiler
