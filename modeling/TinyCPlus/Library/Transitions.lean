import Mathlib

/-!
# Guarded transition systems

An event happens in a state or is not possible there.  A run is a list of
events that are possible one after the other.
-/

namespace TinyCPlus.Library

/-- A system over states `σ` and events `ι`. -/
structure Transitions (σ ι : Type*) where
  step : σ → ι → Option σ

namespace Transitions

variable {σ ι : Type*} (m : Transitions σ ι)

/-- The state after a list of events, if every one of them is possible. -/
def run (s : σ) : List ι → Option σ
  | [] => some s
  | i :: rest => (m.step s i).bind fun s' ↦ run s' rest

@[simp] theorem run_nil (s : σ) : m.run s [] = some s := rfl

theorem run_cons_eq_some {s t : σ} {i : ι} {rest : List ι} :
    m.run s (i :: rest) = some t ↔ ∃ s', m.step s i = some s' ∧ m.run s' rest = some t :=
  Option.bind_eq_some_iff

/-- A run after a run is a run. -/
theorem run_append {s t u : σ} {events events' : List ι} (h : m.run s events = some t)
    (h' : m.run t events' = some u) : m.run s (events ++ events') = some u := by
  induction events generalizing s with
  | nil =>
      cases h
      exact h'
  | cons i rest ih =>
      obtain ⟨s', hfirst, hrest⟩ := m.run_cons_eq_some.mp h
      exact m.run_cons_eq_some.mpr ⟨s', hfirst, ih hrest⟩

variable {m}

/-- What every step keeps holds in every state of a run. -/
theorem run_invariant {P : σ → Prop} (hstep : ∀ {s i t}, P s → m.step s i = some t → P t)
    {s t : σ} {events : List ι} (hs : P s) (hrun : m.run s events = some t) : P t := by
  induction events generalizing s with
  | nil =>
      cases hrun
      exact hs
  | cons i rest ih =>
      obtain ⟨s', hfirst, hrest⟩ := m.run_cons_eq_some.mp hrun
      exact ih (hstep hs hfirst) hrest

/-- The runs whose steps all meet a condition. -/
def restrict (m : Transitions σ ι) (p : σ → ι → Prop) [∀ s i, Decidable (p s i)] :
    Transitions σ ι where
  step s i := if p s i then m.step s i else none

theorem restrict_step_eq_some {p : σ → ι → Prop} [∀ s i, Decidable (p s i)] {s t : σ} {i : ι} :
    (m.restrict p).step s i = some t ↔ p s i ∧ m.step s i = some t :=
  Option.ite_none_right_eq_some

end Transitions

end TinyCPlus.Library
