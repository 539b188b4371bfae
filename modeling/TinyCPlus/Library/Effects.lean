import Mathlib

/-!
# Effects on a state

Computations that may leave nothing, and when two of them do the same on the
states that an invariant allows.
-/

namespace TinyCPlus.Library

/-- Effects on a state; nothing is left where a program does not return or what it
does is undefined. -/
abbrev Effect (σ : Type) := StateT σ Option

namespace Effect

variable {σ α β γ δ : Type}

/-- Nothing is left on both sides, or the same state, with `I`, and results that `P`
relates. -/
def Leave (I : σ → Prop) (P : α → β → Prop) : Option (α × σ) → Option (β × σ) → Prop
  | none, none => True
  | some (a, s), some (b, s') => s = s' ∧ I s ∧ P a b
  | none, some _ | some _, none => False

/-- Both do the same from states with `I`. -/
def Related (I : σ → Prop) (P : α → β → Prop) (x : Effect σ α) (y : Effect σ β) : Prop :=
  ∀ s, I s → Leave I P (x s) (y s)

/-- The invariant holds of what is left. -/
def Keeps (I : σ → Prop) (x : Effect σ α) : Prop := ∀ s a s', I s → x s = some (a, s') → I s'

variable {I : σ → Prop} {P : α → β → Prop} {Q : γ → δ → Prop}

theorem bind_apply (x : Effect σ α) (f : α → Effect σ β) (s : σ) :
    (x >>= f) s = (x s).bind fun r ↦ f r.1 r.2 := rfl

theorem Related.pure {a : α} {b : β} (h : P a b) :
    Related I P (pure a : Effect σ α) (pure b : Effect σ β) := fun _ hs ↦ ⟨rfl, hs, h⟩

theorem Related.failure : Related I P (failure : Effect σ α) (failure : Effect σ β) :=
  fun _ _ ↦ trivial

theorem Related.bind {x : Effect σ α} {y : Effect σ β} {f : α → Effect σ γ} {g : β → Effect σ δ}
    (h : Related I P x y) (hrest : ∀ a b, P a b → Related I Q (f a) (g b)) :
    Related I Q (x >>= f) (y >>= g) := by
  intro s hs
  have hfirst := h s hs
  rw [bind_apply, bind_apply]
  generalize x s = left at hfirst ⊢
  generalize y s = right at hfirst ⊢
  rcases left with _ | ⟨a, s₁⟩ <;> rcases right with _ | ⟨b, s₂⟩
  · trivial
  · exact hfirst.elim
  · exact hfirst.elim
  · obtain ⟨rfl, hs₁, hab⟩ := hfirst
    exact hrest a b hab s₁ hs₁

theorem Related.refl {x : Effect σ α} (h : Keeps I x) : Related I (· = ·) x x := by
  intro s hs
  rcases hx : x s with _ | ⟨a, s'⟩
  · trivial
  · exact ⟨rfl, h s a s' hs hx, rfl⟩

theorem Related.mono {R : α → β → Prop} {x : Effect σ α} {y : Effect σ β} (h : Related I P x y)
    (hPR : ∀ a b, P a b → R a b) : Related I R x y := by
  intro s hs
  have hfirst := h s hs
  generalize x s = left at hfirst ⊢
  generalize y s = right at hfirst ⊢
  rcases left with _ | ⟨a, s₁⟩ <;> rcases right with _ | ⟨b, s₂⟩
  · trivial
  · exact hfirst.elim
  · exact hfirst.elim
  · exact ⟨hfirst.1, hfirst.2.1, hPR a b hfirst.2.2⟩

/-- Effects with equal results do the same. -/
theorem Related.apply_eq {x y : Effect σ α} (h : Related I (· = ·) x y) {s : σ} (hs : I s) :
    x s = y s := by
  have hfirst := h s hs
  generalize x s = left at hfirst ⊢
  generalize y s = right at hfirst ⊢
  rcases left with _ | ⟨a, s₁⟩ <;> rcases right with _ | ⟨b, s₂⟩
  · rfl
  · exact hfirst.elim
  · exact hfirst.elim
  · obtain ⟨rfl, -, rfl⟩ := hfirst
    rfl

end Effect

end TinyCPlus.Library
