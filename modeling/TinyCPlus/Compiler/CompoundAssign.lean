import TinyCPlus.Compiler.Evaluation

/-!
# Compound assignment

`l op= e` is lowered to a temporary for the address of `l`, one for the value of `e`, and the
C expression `(*address op= value)`.  The old value of `l` is thus read by C, behind `e`.
-/

namespace TinyCPlus.Compiler.Evaluation

open TinyCPlus.Library CState

variable {M A V α : Type}

/-- What is seen of a run of emitted code: the result and the memory of the program. -/
def observed (r : Option (α × CState M A V)) : Option (α × M) :=
  r.map fun p ↦ (p.1, p.2.mem)

theorem Outcome.observed_eq {g : ℕ} {temps : ℕ → Option (TempValue A V)}
    {x : Option (α × CState M A V)} {y : Option (α × M)} (h : Outcome g temps x y) :
    observed x = y := by
  rcases x with _ | ⟨a, s⟩ <;> rcases y with _ | ⟨b, m⟩
  · rfl
  · exact h.elim
  · exact h.elim
  · obtain ⟨rfl, rfl, -⟩ := h
    rfl

namespace CMeaning

variable (I : CMeaning M A V)

/-- The emitted code of an expression does what the expression means. -/
theorem observed_run (e : Expr) (g : ℕ) (s : CState M A V) :
    observed ((I.expression e g).run s) = (I.meaning e).value s.mem :=
  ((I.expression_implements e g).value s).observed_eq

/-- `l op= e` with its operands from left to right: the address of `l`, its value, `e`, and
the result back into `l`. -/
def leftToRight (op : String) (l e : Expr) : Effect M V := do
  let a ← (I.meaning l).place
  let v ← I.read a
  let w ← (I.meaning e).value
  let r ← pick (I.compound op v w)
  I.write a r
  pure r

/-- Where `e` leaves the location of `l` alive, the value that was there before `e` and the
one that is there behind it give the same result. -/
def Steady (op : String) (l e : Expr) (m : M) : Prop :=
  ∀ a m₁ w m₂ v₂, (I.meaning l).place m = some (a, m₁) →
    (I.meaning e).value m₁ = some (w, m₂) → I.load m₂ a = some v₂ →
    (I.load m₁ a).bind (I.compound op · w) = I.compound op v₂ w

/-- A result that is written to a location. -/
def finish (m : M) (a : A) (r : Option V) : Option (V × M) :=
  r.bind fun r ↦ (I.store m a r).map fun m' ↦ (r, m')

theorem finish_of_dead {m : M} {a : A} (h : I.load m a = none) (r : Option V) :
    I.finish m a r = none := by
  cases r with
  | none => rfl
  | some r =>
    have hsome := I.store_isSome m a r
    rw [h] at hsome
    have hnone : I.store m a r = none := Option.not_isSome_iff_eq_none.1 (by simp [hsome])
    rw [finish, Option.bind_some, hnone]
    rfl

theorem finish_injective {m : M} {a : A} {v : V} (h : I.load m a = some v) {r r' : Option V}
    (heq : I.finish m a r = I.finish m a r') : r = r' := by
  have hstore : ∀ r, ∃ m', I.store m a r = some m' := by
    intro r
    rw [← Option.isSome_iff_exists, I.store_isSome, h]
    rfl
  have hsome : ∀ r, ∃ m', I.finish m a (some r) = some (r, m') := by
    intro r
    obtain ⟨m', hm'⟩ := hstore r
    exact ⟨m', by rw [finish, Option.bind_some, hm']; rfl⟩
  rcases r with _ | r <;> rcases r' with _ | r'
  · rfl
  · obtain ⟨m', hm'⟩ := hsome r'
    rw [hm'] at heq
    cases heq
  · obtain ⟨m', hm'⟩ := hsome r
    rw [hm'] at heq
    cases heq
  · obtain ⟨m₁, hm₁⟩ := hsome r
    obtain ⟨m₂, hm₂⟩ := hsome r'
    rw [hm₁, hm₂] at heq
    cases heq
    rfl

theorem read_bind (m : M) (a : A) (f : V → Effect M α) :
    (I.read a >>= f) m = (I.load m a).bind fun v ↦ f v m := by
  rw [Effect.bind_apply, read]
  rcases I.load m a with _ | v
  · rfl
  · rfl

theorem finish_apply (m : M) (a : A) (r : Option V) :
    (pick r >>= fun r ↦ I.write a r >>= fun _ ↦ pure r) m = I.finish m a r := by
  rcases r with _ | r
  · rfl
  · rw [pick_bind, Effect.bind_apply, write, finish, Option.bind_some]
    rcases I.store m a r with _ | m'
    · rfl
    · rfl

section Cases

variable {I} {op : String} {l e : Expr} {m m₁ m₂ : M} {a : A} {w : V}

theorem finish_bind (o : Option V) :
    (o.bind fun v ↦ I.finish m₂ a (I.compound op v w)) =
      I.finish m₂ a (o.bind (I.compound op · w)) := by
  rcases o with _ | v
  · rfl
  · rfl

theorem compound_apply (hl : (I.meaning l).place m = some (a, m₁))
    (he : (I.meaning e).value m₁ = some (w, m₂)) :
    (I.meaning (.compound op l e)).value m =
      I.finish m₂ a ((I.load m₂ a).bind (I.compound op · w)) := by
  rw [meaning]
  change ((I.meaning l).place >>= _) m = _
  rw [Effect.bind_apply, hl, Option.bind_some, Effect.bind_apply, he, Option.bind_some,
    read_bind, ← finish_bind]
  simp only [finish_apply]

theorem leftToRight_apply (hl : (I.meaning l).place m = some (a, m₁))
    (he : (I.meaning e).value m₁ = some (w, m₂)) :
    I.leftToRight op l e m = I.finish m₂ a ((I.load m₁ a).bind (I.compound op · w)) := by
  rw [leftToRight, Effect.bind_apply, hl, Option.bind_some, read_bind, ← finish_bind]
  congr 1
  funext v
  rw [Effect.bind_apply, he, Option.bind_some, finish_apply]

/-- Where the location or `e` gives nothing, neither order does. -/
theorem orders_of_place_none (hl : (I.meaning l).place m = none) :
    (I.meaning (.compound op l e)).value m = I.leftToRight op l e m := by
  rw [meaning, leftToRight, Effect.bind_apply, hl]
  change ((I.meaning l).place >>= _) m = _
  rw [Effect.bind_apply, hl]
  rfl

theorem orders_of_value_none (hl : (I.meaning l).place m = some (a, m₁))
    (he : (I.meaning e).value m₁ = none) :
    (I.meaning (.compound op l e)).value m = I.leftToRight op l e m := by
  have hlowered : (I.meaning (.compound op l e)).value m = none := by
    rw [meaning]
    change ((I.meaning l).place >>= _) m = _
    rw [Effect.bind_apply, hl, Option.bind_some, Effect.bind_apply, he]
    rfl
  rw [hlowered, leftToRight, Effect.bind_apply, hl, Option.bind_some, read_bind]
  rcases I.load m₁ a with _ | v
  · rfl
  · rw [Option.bind_some, Effect.bind_apply, he]
    rfl

end Cases

/-- The emitted code of `l op= e` works from left to right exactly where `e` is steady on the
location. -/
theorem compound_leftToRight_iff (op : String) (l e : Expr) (g : ℕ) (s : CState M A V) :
    observed ((I.expression (.compound op l e) g).run s) = I.leftToRight op l e s.mem ↔
      I.Steady op l e s.mem := by
  rw [observed_run]
  constructor
  · intro heq a m₁ w m₂ v₂ hl he hv₂
    rw [compound_apply hl he, leftToRight_apply hl he] at heq
    have hsame := I.finish_injective hv₂ heq
    rw [hv₂] at hsame
    exact hsame.symm
  · intro h
    rcases hl : (I.meaning l).place s.mem with _ | ⟨a, m₁⟩
    · exact orders_of_place_none hl
    · rcases he : (I.meaning e).value m₁ with _ | ⟨w, m₂⟩
      · exact orders_of_value_none hl he
      · rw [compound_apply hl he, leftToRight_apply hl he]
        rcases hv₂ : I.load m₂ a with _ | v₂
        · rw [I.finish_of_dead hv₂, I.finish_of_dead hv₂]
        · rw [h a m₁ w m₂ v₂ hl he hv₂]
          rfl

/-- A right side that leaves the value of the location as it was is steady on it. -/
theorem steady_of_kept {op : String} {l e : Expr} {m : M}
    (h : ∀ a m₁ w m₂, (I.meaning l).place m = some (a, m₁) →
      (I.meaning e).value m₁ = some (w, m₂) → I.load m₂ a = I.load m₁ a) :
    I.Steady op l e m := by
  intro a m₁ w m₂ v₂ hl he hv₂
  rw [← h a m₁ w m₂ hl he, hv₂]
  rfl

end CMeaning

/-! ## A right side that assigns to the location -/

/-- Integer variables, with addition, no pointers and no functions. -/
def integerVariables : CMeaning (String → ℤ) String ℤ where
  address := id
  load := fun m x ↦ some (m x)
  store := fun m x v ↦ some (Function.update m x v)
  store_isSome := fun _ _ _ ↦ rfl
  store_store := by
    intro m x v m' h
    cases h
    exact congrArg some (Function.update_idem _ _ _)
  literal := fun t ↦ t.toList.foldl (fun n c ↦ 10 * n + (c.toNat - '0'.toNat)) 0
  pointer := fun _ ↦ 0
  pointee := fun _ ↦ none
  field := fun x _ ↦ x
  part := fun _ _ ↦ none
  view := fun _ ↦ 0
  element := fun _ _ ↦ none
  truth := fun v ↦ v ≠ 0
  ofBool := fun b ↦ if b then 1 else 0
  unary := fun op v ↦ if op = "-" then some (-v) else none
  binary := fun op v w ↦ if op = "+" then some (v + w) else none
  compound := fun op v w ↦ if op = "+" then some (v + w) else none
  convert := fun _ v ↦ v
  closure := fun v _ _ ↦ v
  call := fun _ _ ↦ failure

/-- `x += (x = 5)` from `x = 1` gives 10; from left to right it gives 6. -/
theorem compound_reads_late :
    let e : Expr := .assign .none (.name "x") (.literal "5")
    let s : CState (String → ℤ) String ℤ := ⟨fun _ ↦ 1, fun _ ↦ none⟩
    let L := integerVariables.expression (.compound "+" (.name "x") e) 0
    (observed (L.run s)).map Prod.fst = some 10 ∧
      (integerVariables.leftToRight "+" (.name "x") e s.mem).map Prod.fst = some 6 ∧
      observed (L.run s) ≠ integerVariables.leftToRight "+" (.name "x") e s.mem := by
  intro e s L
  have hlowered : (observed (L.run s)).map Prod.fst = some 10 := by
    rw [CMeaning.observed_run]
    rfl
  have horder : (integerVariables.leftToRight "+" (.name "x") e s.mem).map Prod.fst = some 6 := rfl
  refine ⟨hlowered, horder, fun heq ↦ ?_⟩
  rw [heq, horder] at hlowered
  cases hlowered

end TinyCPlus.Compiler.Evaluation
