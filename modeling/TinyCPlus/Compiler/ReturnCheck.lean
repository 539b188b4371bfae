import TinyCPlus.Compiler.Statement

/-!
# Bodies that end without a result

How the executions of a statement end can be read off the statement.  The
check `returns` keeps an execution from the end of a body, unless there is a
switch without cases on an enum.
-/

namespace TinyCPlus.Compiler

section May

variable {E : Type} (K : Checks E)

mutual

/-- Some execution of the statement ends by `o`. -/
def may (o : Outcome) : Stmt E → Bool
  | .block body => o == .stop || mayBlock o body
  | .var _ _ | .expr _ | .defer _ | .delete _ => o == .stop || o == .normal
  | .ret _ => o == .stop || o == .ret
  | .ite _ body b =>
      o == .stop || may o body ||
        (match b with
        | some b => may o b
        | none => o == .normal)
  | .switch a items =>
      o == .stop || mayItems o items ||
        (o == .normal && !hasDefault items && !K.guarded a items)
  | .while _ body | .range _ body =>
      o == .stop || o == .normal || ((o == .ret) && may o body)
  | .for a b _ body =>
      o == .stop ||
        (match a with
          | some a =>
              (o != .normal && may o a) ||
                (may .normal a && ((o == .normal && (b.isSome || may .brk body)) ||
                  (o == .ret && may o body)))
          | none =>
              (o == .normal && (b.isSome || may .brk body)) || (o == .ret && may o body))
  | .break => o == .stop || o == .brk
  | .continue => o == .stop || o == .cont

def mayBlock (o : Outcome) : List (Stmt E) → Bool
  | [] => o == .normal
  | s :: body => (may .normal s && mayBlock o body) || (o != .normal && may o s)

def mayItems (o : Outcome) : List (Item E) → Bool
  | [] => false
  | (_, body) :: items => mayBlock o body || mayItems o items

end

/-- What `may` says about everything that is executed. -/
def Code.may (o : Outcome) : Code E → Bool
  | .stmt s => Compiler.may K o s
  | .block body => mayBlock K o body
  | .loop condition body =>
      (o == .normal && (condition || Compiler.may K .brk body)) ||
        ((o == .ret || o == .stop) && Compiler.may K o body)

theorem may_stop (s : Stmt E) : may K .stop s = true := by
  cases s with
  | ite a body b => cases b <;> simp [may]
  | «for» a b c body => cases a <;> simp [may]
  | _ => simp [may]

theorem mem_mayItems {o : Outcome} {items : List (Item E)} {item : Item E} (hitem : item ∈ items)
    (h : mayBlock K o item.2 = true) : mayItems K o items = true := by
  induction items with
  | nil => cases hitem
  | cons head items ih =>
      rw [mayItems, Bool.or_eq_true]
      rcases List.mem_cons.mp hitem with rfl | hitem
      · exact .inl h
      · exact .inr (ih hitem)

/-- Every execution ends as `may` says. -/
theorem Exec.may {c : Code E} {o : Outcome} (h : Exec K c o) : c.may K o = true := by
  induction h with
  | nil | var | expr | defer | delete | ret | «break» | «continue» | done | guard => rfl
  | next _ _ hs h => simp_all [Code.may, mayBlock]
  | leave _ ho hs => simp_all [Code.may, mayBlock]
  | block _ h => simp_all [Code.may, Compiler.may]
  | @iteTrue a body b o _ h => cases b <;> simp_all [Code.may, Compiler.may]
  | iteFalse _ h => simp_all [Code.may, Compiler.may]
  | iteNone => simp [Code.may, Compiler.may]
  | item hitem _ h => simp [Code.may, Compiler.may, mem_mayItems K hitem h]
  | noItem hdefault hguard => simp [Code.may, Compiler.may, hdefault, hguard]
  | @«while» a body o h h => cases o <;> simp_all [Code.may, Compiler.may]
  | @range a body o h h => cases o <;> simp_all [Code.may, Compiler.may]
  | @«for» b c body o _ h => cases o <;> simp_all [Code.may, Compiler.may]
  | @forInit a b c body o _ _ ha h => cases o <;> simp_all [Code.may, Compiler.may]
  | forLeave _ ho ha => simp_all [Code.may, Compiler.may]
  | turn _ _ _ _ h => exact h
  | loopBreak _ h => simp_all [Code.may]
  | loopLeave _ ho h => rcases ho with rfl | rfl <;> simp_all [Code.may]
  | panic s => exact may_stop K s

theorem exec_loop {condition : Bool} {body : Stmt E} {o : Outcome}
    (hbody : ∀ o, may K o body = true → Exec K (.stmt body) o)
    (h : (Code.loop condition body).may K o = true) : Exec K (.loop condition body) o := by
  simp only [Code.may, Bool.or_eq_true, Bool.and_eq_true, beq_iff_eq] at h
  rcases h with ⟨rfl, hend | hbreak⟩ | ⟨ho, hleave⟩
  · subst hend
    exact .done
  · exact .loopBreak (hbody .brk hbreak)
  · exact .loopLeave (hbody o hleave) ho

mutual

/-- There is an execution for everything that `may` says, by induction on the
statement. -/
theorem exec_of_may (s : Stmt E) (o : Outcome) (h : may K o s = true) : Exec K (.stmt s) o := by
  by_cases hstop : o = .stop
  · subst hstop
    exact .panic s
  · cases s with
    | block body =>
        simp only [may, Bool.or_eq_true, beq_iff_eq, hstop, false_or] at h
        exact .block (exec_of_mayBlock body o h)
    | var locals a =>
        simp only [may, Bool.or_eq_true, beq_iff_eq, hstop, false_or] at h
        subst h
        exact .var locals a
    | expr a =>
        simp only [may, Bool.or_eq_true, beq_iff_eq, hstop, false_or] at h
        subst h
        exact .expr a
    | ret a =>
        simp only [may, Bool.or_eq_true, beq_iff_eq, hstop, false_or] at h
        subst h
        exact .ret a
    | ite a body b =>
        cases b with
        | none =>
            simp only [may, Bool.or_eq_true, beq_iff_eq, hstop, false_or] at h
            rcases h with h | rfl
            · exact .iteTrue (exec_of_may body o h)
            · exact .iteNone
        | some b =>
            simp only [may, Bool.or_eq_true, beq_iff_eq, hstop, false_or] at h
            rcases h with h | h
            · exact .iteTrue (exec_of_may body o h)
            · exact .iteFalse (exec_of_may b o h)
    | «switch» a items =>
        simp only [may, Bool.or_eq_true, Bool.and_eq_true, beq_iff_eq, hstop, false_or,
          Bool.not_eq_true'] at h
        rcases h with h | ⟨⟨rfl, hdefault⟩, hguard⟩
        · obtain ⟨item, hitem, h⟩ := exec_of_mayItems items o h
          exact .item hitem h
        · exact .noItem hdefault hguard
    | «while» a body =>
        refine .while (exec_loop K (fun o h ↦ exec_of_may body o h) ?_)
        simp_all [may, Code.may]
    | range a body =>
        refine .range (exec_loop K (fun o h ↦ exec_of_may body o h) ?_)
        simp_all [may, Code.may]
    | «for» a b c body =>
        have hloop (h : (Code.loop b.isSome body).may K o = true) :
            Exec K (.loop b.isSome body) o :=
          exec_loop K (fun o h ↦ exec_of_may body o h) h
        cases a with
        | none =>
            refine .for (hloop ?_)
            simp_all [may, Code.may]
        | some a =>
            simp only [may, Bool.or_eq_true, Bool.and_eq_true, beq_iff_eq, hstop, false_or,
              bne_iff_ne] at h
            rcases h with ⟨ho, ha⟩ | ⟨ha, h⟩
            · exact .forLeave (exec_of_may a o ha) ho
            · refine .forInit (exec_of_may a .normal ha) (hloop ?_)
              simp_all [Code.may]
    | «break» =>
        simp only [may, Bool.or_eq_true, beq_iff_eq, hstop, false_or] at h
        subst h
        exact .break
    | «continue» =>
        simp only [may, Bool.or_eq_true, beq_iff_eq, hstop, false_or] at h
        subst h
        exact .continue
    | defer a =>
        simp only [may, Bool.or_eq_true, beq_iff_eq, hstop, false_or] at h
        subst h
        exact .defer a
    | delete a =>
        simp only [may, Bool.or_eq_true, beq_iff_eq, hstop, false_or] at h
        subst h
        exact .delete a

theorem exec_of_mayBlock (body : List (Stmt E)) (o : Outcome) (h : mayBlock K o body = true) :
    Exec K (.block body) o := by
  cases body with
  | nil =>
      rw [mayBlock, beq_iff_eq] at h
      subst h
      exact .nil
  | cons s body =>
      simp only [mayBlock, Bool.or_eq_true, Bool.and_eq_true, bne_iff_ne] at h
      rcases h with ⟨hs, h⟩ | ⟨ho, hs⟩
      · exact .next (exec_of_may s .normal hs) (exec_of_mayBlock body o h)
      · exact .leave (exec_of_may s o hs) ho

theorem exec_of_mayItems (items : List (Item E)) (o : Outcome) (h : mayItems K o items = true) :
    ∃ item ∈ items, Exec K (.block item.2) o := by
  cases items with
  | nil => cases h
  | cons item items =>
      rw [mayItems, Bool.or_eq_true] at h
      rcases h with h | h
      · exact ⟨item, List.mem_cons_self, exec_of_mayBlock item.2 o h⟩
      · obtain ⟨item, hitem, h⟩ := exec_of_mayItems items o h
        exact ⟨item, List.mem_cons_of_mem _ hitem, h⟩

end

theorem exec_iff (s : Stmt E) (o : Outcome) : Exec K (.stmt s) o ↔ may K o s = true :=
  ⟨Exec.may K, exec_of_may K s o⟩

/-! ## The check -/

mutual

/-- There is a switch on an enum without a case. -/
def caseless : Stmt E → Bool
  | .block body => caselessBlock body
  | .ite _ body b =>
      caseless body ||
        (match b with
        | some b => caseless b
        | none => false)
  | .switch a items => (K.isEnum a && items.isEmpty) || caselessItems items
  | .while _ body | .range _ body | .for _ _ _ body => caseless body
  | .var _ _ | .expr _ | .ret _ | .break | .continue | .defer _ | .delete _ => false

def caselessBlock : List (Stmt E) → Bool
  | [] => false
  | s :: body => caseless s || caselessBlock body

def caselessItems : List (Item E) → Bool
  | [] => false
  | (_, body) :: items => caselessBlock body || caselessItems items

end

mutual

/-- A statement that the check accepts does not end by itself, by induction on
the statement. -/
theorem not_may_of_returns (s : Stmt E) (hcases : caseless K s = false) (h : returns K s = true) :
    may K .normal s = false := by
  cases s with
  | ret a => rfl
  | block body =>
      rw [caseless] at hcases
      rw [returns] at h
      simp [may, not_mayBlock_of_returns body hcases h]
  | ite a body b =>
      cases b with
      | none => simp [returns] at h
      | some b =>
          simp only [caseless, Bool.or_eq_false_iff] at hcases
          simp only [returns, Bool.and_eq_true] at h
          simp [may, not_may_of_returns body hcases.1 h.1, not_may_of_returns b hcases.2 h.2]
  | «switch» a items =>
      simp only [caseless, Bool.or_eq_false_iff] at hcases
      simp only [returns, Bool.and_eq_true] at h
      have hitems := not_mayItems_of_returns items hcases.2 h.2
      have hguard : K.guarded a items = true ∨ hasDefault items = true := by
        have henum := hcases.1
        have hdefault := h.1
        cases hd : hasDefault items <;> simp_all [Checks.guarded]
      rcases hguard with hguard | hdefault
      · simp [may, hitems, hguard]
      · simp [may, hitems, hdefault]
  | var | expr | «while» | «for» | range | «break» | «continue» | defer | delete => cases h

theorem not_mayBlock_of_returns (body : List (Stmt E)) (hcases : caselessBlock K body = false)
    (h : returnsBlock K body = true) : mayBlock K .normal body = false := by
  cases body with
  | nil => cases h
  | cons s body =>
      simp only [caselessBlock, Bool.or_eq_false_iff] at hcases
      rw [returnsBlock, Bool.or_eq_true] at h
      rcases h with h | h
      · simp [mayBlock, not_may_of_returns s hcases.1 h]
      · simp [mayBlock, not_mayBlock_of_returns body hcases.2 h]

theorem not_mayItems_of_returns (items : List (Item E)) (hcases : caselessItems K items = false)
    (h : returnsItems K items = true) : mayItems K .normal items = false := by
  cases items with
  | nil => rfl
  | cons item items =>
      simp only [caselessItems, Bool.or_eq_false_iff] at hcases
      simp only [returnsItems, Bool.and_eq_true] at h
      simp [mayItems, not_mayBlock_of_returns item.2 hcases.1 h.1,
        not_mayItems_of_returns items hcases.2 h.2]

end

/-- The bodies to which `returns` is not applied, or where it is not enough. -/
def Callable.unchecked : Callable E → Bool
  | .function _ _ body => caseless K body
  | .lambda _ (.inl _) => false
  | .lambda _ (.inr _) => true

/-- No path through the statements of the body leads to its end. -/
def Callable.mustLeave : Callable E → Bool
  | .function _ _ body | .lambda _ (.inr body) => !may K .normal body
  | .lambda _ (.inl _) => true

theorem fallsOff_iff (c : Callable E) : FallsOff K c ↔ c.mustLeave K = false := by
  cases c with
  | function name void body => simp [FallsOff, Callable.mustLeave, exec_iff]
  | lambda void body => cases body <;> simp [FallsOff, Callable.mustLeave, exec_iff]

/-- In a program that is accepted, no execution reaches the end of a body with a
result if and only if the bodies of lambdas, and those with a switch without
cases on an enum, have no path to their end. -/
theorem returns_iff {program : List (Callable E)} (h : analyze K program = true) :
    (∀ c ∈ program, c.needsReturn = true → ¬ FallsOff K c) ↔
      ∀ c ∈ program, c.needsReturn = true → c.unchecked K = true → c.mustLeave K = true := by
  have hchecked (c : Callable E) (hc : c ∈ program) (hneeds : c.needsReturn = true)
      (hunchecked : c.unchecked K = false) : c.mustLeave K = true := by
    have hcheck := List.all_eq_true.mp h c hc
    cases c with
    | function name void body =>
        simp only [checkCallable, Bool.and_eq_true, Bool.or_eq_true] at hcheck
        simp only [Callable.needsReturn, Bool.and_eq_true, Bool.not_eq_true', bne_iff_ne] at hneeds
        have hreturns : returns K body = true := by
          rcases hcheck.2 with (hvoid | hreturns) | hmain
          · rw [hneeds.1] at hvoid
            cases hvoid
          · exact hreturns
          · exact absurd (beq_iff_eq.mp hmain) hneeds.2
        simp [Callable.mustLeave, not_may_of_returns K body hunchecked hreturns]
    | lambda void body =>
        cases body with
        | inl a => rfl
        | inr body => cases hunchecked
  constructor
  · intro hsafe c hc hneeds _
    by_contra hleave
    exact hsafe c hc hneeds ((fallsOff_iff K c).mpr (Bool.eq_false_of_not_eq_true hleave))
  · intro hleave c hc hneeds hfalls
    rw [fallsOff_iff] at hfalls
    cases hunchecked : c.unchecked K with
    | true => simp [hleave c hc hneeds hunchecked] at hfalls
    | false => simp [hchecked c hc hneeds hunchecked] at hfalls

end May

/-- Expressions without errors, none of them of an enum. -/
def plainChecks : Checks Unit where
  accepts _ := true
  enumValues _ := none
  enumValue _ := ""

/-- `int pick(int x) { if (x) return 1; else return 2; }` -/
theorem returns_iff_branches :
    (∀ c ∈ [Callable.function "pick" false
        (.block [.ite () (.ret (some ())) (some (.ret (some ())))])],
      c.needsReturn = true → ¬ FallsOff plainChecks c) ↔
    ∀ c ∈ [Callable.function "pick" false
        (.block [.ite () (.ret (some ())) (some (.ret (some ())))])],
      c.needsReturn = true → c.unchecked plainChecks = true → c.mustLeave plainChecks = true :=
  returns_iff plainChecks (by decide)

/-- `(int x) => { }` where a function with a result is expected. -/
theorem lambda_falls_off :
    ¬ ∀ (E : Type) (K : Checks E) (program : List (Callable E)), analyze K program = true →
      ∀ c ∈ program, c.needsReturn = true → ¬ FallsOff K c := by
  intro h
  have hsafe := h Unit plainChecks [.lambda false (.inr (.block []))] (by decide)
  exact hsafe _ List.mem_cons_self rfl (.block .nil)

end TinyCPlus.Compiler
