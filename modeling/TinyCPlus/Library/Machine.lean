import Mathlib

/-!
# Deterministic machines and simulations between them

A store with an operation interface is a machine: every operation maps the
current state to a next state and an answer.  Two machines that are related
by a simulation give the same answers to every sequence of operations, and
the relation holds between the states they reach.
-/

namespace TinyCPlus.Library

/-- A deterministic machine over states `σ`, operations `ι` and answers `ω`. -/
structure Machine (σ ι ω : Type*) where
  step : σ → ι → σ × ω

namespace Machine

variable {σ τ ι ω : Type*}

/-- The state reached after a sequence of operations. -/
def run (m : Machine σ ι ω) (s : σ) : List ι → σ
  | [] => s
  | i :: rest => m.run (m.step s i).1 rest

/-- The answers given to a sequence of operations. -/
def answers (m : Machine σ ι ω) (s : σ) : List ι → List ω
  | [] => []
  | i :: rest => (m.step s i).2 :: m.answers (m.step s i).1 rest

@[simp] theorem run_nil (m : Machine σ ι ω) (s : σ) : m.run s [] = s := rfl

@[simp] theorem run_cons (m : Machine σ ι ω) (s : σ) (i : ι) (rest : List ι) :
    m.run s (i :: rest) = m.run (m.step s i).1 rest := rfl

@[simp] theorem answers_nil (m : Machine σ ι ω) (s : σ) :
    m.answers s [] = [] := rfl

@[simp] theorem answers_cons (m : Machine σ ι ω) (s : σ) (i : ι)
    (rest : List ι) :
    m.answers s (i :: rest) =
      (m.step s i).2 :: m.answers (m.step s i).1 rest := rfl

/-- An invariant of every step is an invariant of every run. -/
theorem run_invariant (m : Machine σ ι ω) {P : σ → Prop}
    (hstep : ∀ s i, P s → P (m.step s i).1) {s : σ} (hs : P s)
    (ops : List ι) : P (m.run s ops) := by
  induction ops generalizing s with
  | nil => exact hs
  | cons i rest ih => exact ih (hstep s i hs)

/-- `R` relates the two machines at every step and the answers coincide. -/
def Simulates (m : Machine σ ι ω) (n : Machine τ ι ω) (R : σ → τ → Prop) :
    Prop :=
  ∀ s t i, R s t →
    R (m.step s i).1 (n.step t i).1 ∧ (m.step s i).2 = (n.step t i).2

theorem Simulates.run {m : Machine σ ι ω} {n : Machine τ ι ω}
    {R : σ → τ → Prop} (h : Simulates m n R) {s : σ} {t : τ} (hst : R s t)
    (ops : List ι) : R (m.run s ops) (n.run t ops) := by
  induction ops generalizing s t with
  | nil => exact hst
  | cons i rest ih => exact ih (h s t i hst).1

theorem Simulates.answers {m : Machine σ ι ω} {n : Machine τ ι ω}
    {R : σ → τ → Prop} (h : Simulates m n R) {s : σ} {t : τ} (hst : R s t)
    (ops : List ι) : m.answers s ops = n.answers t ops := by
  induction ops generalizing s t with
  | nil => rfl
  | cons i rest ih =>
      obtain ⟨hnext, hanswer⟩ := h s t i hst
      rw [answers_cons, answers_cons, hanswer, ih hnext]

end Machine

end TinyCPlus.Library
