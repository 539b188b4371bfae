import Mathlib

/-!
# Recursion with a budget

A computation on a state gets a budget for its recursion.  It ends with a result or an error,
or leaves nothing where the budget does not suffice.  A recursion terminates from a state if
every budget that is large enough gives the same.
-/

namespace TinyCPlus.Library

/-- Computations on states `σ` with errors `ε`. -/
abbrev Budgeted (σ ε : Type) := StateT σ (ExceptT ε Option)

namespace Budgeted

variable {σ ε α β : Type}

/-- The budget is used up. -/
def exhausted : Budgeted σ ε α := fun _ ↦ (none : Option (Except ε (α × σ)))

/-- The computation ends in this way. -/
def Gives (x : Budgeted σ ε α) (s : σ) (r : Except ε (α × σ)) : Prop :=
  (x s : Option (Except ε (α × σ))) = some r

theorem not_gives_exhausted {s : σ} {r : Except ε (α × σ)} :
    ¬ Gives (exhausted : Budgeted σ ε α) s r := fun h ↦ by cases h

@[simp] theorem gives_pure {a : α} {s : σ} {r : Except ε (α × σ)} :
    Gives (pure a : Budgeted σ ε α) s r ↔ r = .ok (a, s) :=
  ⟨fun h ↦ (Option.some.inj h).symm, fun h ↦ congrArg some h.symm⟩

@[simp] theorem gives_throw {e : ε} {s : σ} {r : Except ε (α × σ)} :
    Gives (throw e : Budgeted σ ε α) s r ↔ r = .error e :=
  ⟨fun h ↦ (Option.some.inj h).symm, fun h ↦ congrArg some h.symm⟩

@[simp] theorem gives_get {s : σ} {r : Except ε (σ × σ)} :
    Gives (get : Budgeted σ ε σ) s r ↔ r = .ok (s, s) :=
  ⟨fun h ↦ (Option.some.inj h).symm, fun h ↦ congrArg some h.symm⟩

@[simp] theorem gives_modify {f : σ → σ} {s : σ} {r : Except ε (Unit × σ)} :
    Gives (modify f : Budgeted σ ε Unit) s r ↔ r = .ok ((), f s) :=
  ⟨fun h ↦ (Option.some.inj h).symm, fun h ↦ congrArg some h.symm⟩

theorem gives_bind {x : Budgeted σ ε α} {f : α → Budgeted σ ε β} {s : σ}
    {r : Except ε (β × σ)} :
    Gives (x >>= f) s r ↔ (∃ e, Gives x s (.error e) ∧ r = .error e) ∨
      ∃ a s', Gives x s (.ok (a, s')) ∧ Gives (f a) s' r := by
  have hbind : (x >>= f) s = Option.bind (x s) fun r : Except ε (α × σ) ↦
      match r with
      | .ok (a, s') => f a s'
      | .error e => some (.error e) := by
    change Option.bind (x s) _ = _
    congr 1
    funext r
    cases r <;> rfl
  simp only [Gives, hbind]
  generalize x s = o
  constructor
  · intro h
    match o, h with
    | some (.error e), h => exact Or.inl ⟨e, rfl, (Option.some.inj h).symm⟩
    | some (.ok (a, s')), h => exact Or.inr ⟨a, s', rfl, h⟩
  · rintro (⟨e, rfl, rfl⟩ | ⟨a, s', rfl, h⟩)
    · rfl
    · exact h

theorem gives_bind_ok {x : Budgeted σ ε α} {f : α → Budgeted σ ε β} {s s'' : σ} {b : β} :
    Gives (x >>= f) s (.ok (b, s'')) ↔
      ∃ a s', Gives x s (.ok (a, s')) ∧ Gives (f a) s' (.ok (b, s'')) := by
  rw [gives_bind]
  constructor
  · rintro (⟨e, -, h⟩ | h)
    · cases h
    · exact h
  · exact Or.inr

/-! ## Termination -/

/-- From some budget on, `x` ends in the same way. -/
def Ends (x : ℕ → Budgeted σ ε α) (s : σ) : Prop := ∃ n r, ∀ m, n ≤ m → Gives (x m) s r

theorem Ends.const {x : Budgeted σ ε α} {s : σ} {r : Except ε (α × σ)} (h : Gives x s r) :
    Ends (fun _ ↦ x) s := ⟨0, r, fun _ _ ↦ h⟩

theorem Ends.succ {x : ℕ → Budgeted σ ε α} {s : σ} (h : Ends (fun n ↦ x (n + 1)) s) :
    Ends x s := by
  obtain ⟨n, r, h⟩ := h
  refine ⟨n + 1, r, fun m hm ↦ ?_⟩
  obtain ⟨m, rfl⟩ := Nat.exists_eq_add_of_le' hm
  exact h (m + n) (Nat.le_add_left n m)

theorem Ends.bind {x : ℕ → Budgeted σ ε α} {f : ℕ → α → Budgeted σ ε β} {s : σ} (h : Ends x s)
    (hrest : ∀ n a s', Gives (x n) s (.ok (a, s')) → Ends (fun n ↦ f n a) s') :
    Ends (fun n ↦ x n >>= f n) s := by
  obtain ⟨n, r, hr⟩ := h
  cases r with
  | error e => exact ⟨n, .error e, fun m hm ↦ gives_bind.mpr (Or.inl ⟨e, hr m hm, rfl⟩)⟩
  | ok p =>
      obtain ⟨m, r, hm⟩ := hrest n p.1 p.2 (hr n le_rfl)
      refine ⟨max n m, r, fun k hk ↦ gives_bind.mpr (Or.inr ⟨p.1, p.2, ?_, ?_⟩)⟩
      · exact hr k ((le_max_left n m).trans hk)
      · exact hm k ((le_max_right n m).trans hk)

/-! ## What holds when it ends -/

/-- From `s`, `x` ends in errors with `E`, or in results and states with `Q`. -/
def Meets (E : ε → Prop) (Q : α → σ → Prop) (x : Budgeted σ ε α) (s : σ) : Prop :=
  ∀ r, Gives x s r →
    match r with
    | .error e => E e
    | .ok (a, s') => Q a s'

variable {E : ε → Prop} {Q : α → σ → Prop} {R : β → σ → Prop}

theorem Meets.exhausted {s : σ} : Meets E Q exhausted s :=
  fun _ h ↦ absurd h not_gives_exhausted

theorem Meets.pure {a : α} {s : σ} (h : Q a s) : Meets E Q (pure a : Budgeted σ ε α) s := by
  intro r hr
  rw [gives_pure.mp hr]
  exact h

theorem Meets.throw {e : ε} {s : σ} (h : E e) : Meets E Q (throw e : Budgeted σ ε α) s := by
  intro r hr
  rw [gives_throw.mp hr]
  exact h

theorem Meets.get {Q : σ → σ → Prop} {s : σ} (h : Q s s) :
    Meets E Q (get : Budgeted σ ε σ) s := by
  intro r hr
  rw [gives_get.mp hr]
  exact h

theorem Meets.modify {Q : Unit → σ → Prop} {f : σ → σ} {s : σ} (h : Q () (f s)) :
    Meets E Q (modify f : Budgeted σ ε Unit) s := by
  intro r hr
  rw [gives_modify.mp hr]
  exact h

theorem Meets.bind {x : Budgeted σ ε α} {f : α → Budgeted σ ε β} {s : σ} (hx : Meets E Q x s)
    (hf : ∀ a s', Q a s' → Meets E R (f a) s') : Meets E R (x >>= f) s := by
  intro r hr
  rcases gives_bind.mp hr with ⟨e, he, rfl⟩ | ⟨a, s', ha, hr⟩
  · exact hx _ he
  · exact hf a s' (hx _ ha) r hr

theorem Meets.imp {Q' : α → σ → Prop} {x : Budgeted σ ε α} {s : σ} (h : Meets E Q x s)
    (hQ : ∀ a s', Q a s' → Q' a s') : Meets E Q' x s := by
  intro r hr
  have hmeets := h r hr
  cases r with
  | error e => exact hmeets
  | ok p => exact hQ _ _ hmeets

theorem Meets.ok {x : Budgeted σ ε α} {s s' : σ} {a : α} (h : Meets E Q x s)
    (hx : Gives x s (.ok (a, s'))) : Q a s' := h _ hx

/-- From `s`, `x` has no result, whatever its budget is. -/
def NoResult (x : Budgeted σ ε α) (s : σ) : Prop := ∀ a s', ¬ Gives x s (.ok (a, s'))

theorem NoResult.exhausted {s : σ} : NoResult (exhausted : Budgeted σ ε α) s :=
  fun _ _ ↦ not_gives_exhausted

theorem NoResult.throw {e : ε} {s : σ} : NoResult (throw e : Budgeted σ ε α) s :=
  fun _ _ h ↦ by cases gives_throw.mp h

theorem NoResult.bind_left {x : Budgeted σ ε α} {s : σ} (h : NoResult x s)
    (f : α → Budgeted σ ε β) : NoResult (x >>= f) s := by
  intro b s'' hb
  obtain ⟨a, s', ha, -⟩ := gives_bind_ok.mp hb
  exact h a s' ha

theorem NoResult.bind_right {x : Budgeted σ ε α} {s : σ} (hx : Meets E Q x s)
    {f : α → Budgeted σ ε β} (h : ∀ a s', Q a s' → NoResult (f a) s') : NoResult (x >>= f) s := by
  intro b s'' hb
  obtain ⟨a, s', ha, hb⟩ := gives_bind_ok.mp hb
  exact h a s' (hx.ok ha) b s'' hb

end Budgeted

end TinyCPlus.Library
