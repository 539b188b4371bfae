import Mathlib

/-!
# Computations with a state that may fail

`Ensures I p Q` says of a run of `p` that does not fail: it keeps the invariant `I` of the state,
and its result has the property `Q`.
-/

namespace TinyCPlus.Library

variable {σ ε α β : Type}

def Ensures (I : σ → Prop) (p : StateT σ (Except ε) α) (Q : α → Prop) : Prop :=
  ∀ s a s', p s = .ok (a, s') → I s → I s' ∧ Q a

namespace Ensures

variable {I : σ → Prop}

theorem of_pure {Q : α → Prop} {a : α} (ha : Q a) :
    Ensures I (pure a : StateT σ (Except ε) α) Q := by
  intro s b s' h hs
  obtain ⟨rfl, rfl⟩ : a = b ∧ s = s' := by simpa [pure, StateT.pure, Except.pure] using h
  exact ⟨hs, ha⟩

theorem of_throw {Q : α → Prop} (e : ε) : Ensures I (throw e : StateT σ (Except ε) α) Q := by
  intro s a s' h
  cases h

theorem bind {p : StateT σ (Except ε) α} {f : α → StateT σ (Except ε) β} {Q : α → Prop}
    {R : β → Prop} (hp : Ensures I p Q) (hf : ∀ a, Q a → Ensures I (f a) R) :
    Ensures I (p >>= f) R := by
  intro s b s' h hs
  cases hrun : p s with
  | error e => simp [Bind.bind, StateT.bind, Except.bind, hrun] at h
  | ok r =>
      obtain ⟨a, s₁⟩ := r
      obtain ⟨hs₁, ha⟩ := hp s a s₁ hrun hs
      apply hf a ha s₁ b s' _ hs₁
      simpa [Bind.bind, StateT.bind, Except.bind, hrun] using h

theorem mono {p : StateT σ (Except ε) α} {Q R : α → Prop} (hp : Ensures I p Q)
    (hQR : ∀ a, Q a → R a) : Ensures I p R := by
  intro s a s' h hs
  obtain ⟨hs', ha⟩ := hp s a s' h hs
  exact ⟨hs', hQR a ha⟩

theorem ite {c : Prop} [Decidable c] {p q : StateT σ (Except ε) α} {Q : α → Prop}
    (hp : c → Ensures I p Q) (hq : ¬c → Ensures I q Q) :
    Ensures I (if c then p else q) Q := by
  split_ifs with h
  · exact hp h
  · exact hq h

theorem of_get : Ensures I (get : StateT σ (Except ε) σ) I := by
  intro s a s' h hs
  obtain ⟨rfl, rfl⟩ : s = a ∧ s = s' := by
    simpa [MonadState.get, getThe, MonadStateOf.get, StateT.get, pure, Except.pure] using h
  exact ⟨hs, hs⟩

theorem of_set {s : σ} (hs : I s) : Ensures I (set s : StateT σ (Except ε) PUnit) fun _ ↦ True := by
  intro s₀ a s' h _
  obtain rfl : s = s' := by
    simpa [MonadStateOf.set, StateT.set, pure, Except.pure] using h
  exact ⟨hs, trivial⟩

/-- What holds of a whole run. -/
theorem run {p : StateT σ (Except ε) α} {Q : α → Prop} (hp : Ensures I p Q) {s s' : σ} {a : α}
    (h : p s = .ok (a, s')) (hs : I s) : I s' := (hp s a s' h hs).1

end Ensures

/-! ## Lists of computations -/

theorem forall₂_of_mapM {f : α → Except ε β} {l : List α} {r : List β}
    (h : l.mapM f = .ok r) : List.Forall₂ (fun a b ↦ f a = .ok b) l r := by
  induction l generalizing r with
  | nil =>
      obtain rfl : [] = r := by simpa [pure, Except.pure] using h
      exact .nil
  | cons a l ih =>
      rw [List.mapM_cons] at h
      cases ha : f a with
      | error e => simp [ha, Bind.bind, Except.bind] at h
      | ok b =>
          cases hl : l.mapM f with
          | error e => simp [ha, hl, Bind.bind, Except.bind] at h
          | ok bs =>
              simp only [ha, hl, Bind.bind, Except.bind, pure, Except.pure,
                Except.ok.injEq] at h
              subst h
              exact .cons ha (ih hl)

/-- A part of the results that every computation keeps. -/
theorem mapM_map_eq {γ : Type} (g : α → γ) {f : α → Except ε α}
    (hf : ∀ a b, f a = .ok b → g b = g a) {l r : List α} (h : l.mapM f = .ok r) :
    r.map g = l.map g := by
  have hall := forall₂_of_mapM h
  clear h
  induction hall with
  | nil => rfl
  | cons hab _ ih => rw [List.map_cons, List.map_cons, hf _ _ hab, ih]

theorem exists_of_mapM {f : α → Except ε β} {l : List α} {r : List β} (h : l.mapM f = .ok r)
    (b : β) (hb : b ∈ r) : ∃ a ∈ l, f a = .ok b := by
  have hall := forall₂_of_mapM h
  clear h
  induction hall with
  | nil => cases hb
  | @cons a c l r hac _ ih =>
      rcases List.mem_cons.mp hb with rfl | hb
      · exact ⟨a, List.mem_cons_self, hac⟩
      · obtain ⟨a', ha', hab⟩ := ih hb
        exact ⟨a', List.mem_cons_of_mem a ha', hab⟩

end TinyCPlus.Library
