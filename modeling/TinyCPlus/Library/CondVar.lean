import Mathlib

/-!
# Condition variables

Threads wait, are woken, and go on at some later time.  A signal wakes at
least one of the threads that wait; a thread may also wake up by itself.
-/

namespace TinyCPlus.Library

/-- The threads that wait, and those that have a wake-up and have not gone on. -/
structure CondVar (τ : Type*) where
  waiting : Multiset τ
  woken : Multiset τ

namespace CondVar

variable {τ : Type*}

def empty : CondVar τ := ⟨0, 0⟩

def wait (c : CondVar τ) (t : τ) : CondVar τ := { c with waiting := t ::ₘ c.waiting }

def broadcast (c : CondVar τ) : CondVar τ := ⟨0, c.woken + c.waiting⟩

@[simp] theorem wait_waiting (c : CondVar τ) (t : τ) : (c.wait t).waiting = t ::ₘ c.waiting := rfl

@[simp] theorem wait_woken (c : CondVar τ) (t : τ) : (c.wait t).woken = c.woken := rfl

@[simp] theorem broadcast_waiting (c : CondVar τ) : c.broadcast.waiting = 0 := rfl

@[simp] theorem broadcast_woken (c : CondVar τ) : c.broadcast.woken = c.woken + c.waiting := rfl

/-- If a thread waits, at least `n` others have a wake-up. -/
def Covers (c : CondVar τ) (n : ℕ) : Prop := c.waiting ≠ 0 → n ≤ c.woken.card

theorem covers_empty (n : ℕ) : (empty : CondVar τ).Covers n := fun h ↦ absurd rfl h

theorem Covers.mono {c : CondVar τ} {m n : ℕ} (h : c.Covers n) (hmn : m ≤ n) : c.Covers m :=
  fun hne ↦ hmn.trans (h hne)

theorem covers_zero (c : CondVar τ) : c.Covers 0 := fun _ ↦ Nat.zero_le _

theorem covers_of_waiting {c : CondVar τ} (h : c.waiting = 0) (n : ℕ) : c.Covers n :=
  fun hne ↦ absurd h hne

variable [DecidableEq τ]

/-- Wakes the chosen threads; none may be chosen only if none waits. -/
def signal (c : CondVar τ) (chosen : Multiset τ) : Option (CondVar τ) :=
  if chosen ≤ c.waiting ∧ (chosen = 0 → c.waiting = 0) then
    some ⟨c.waiting - chosen, c.woken + chosen⟩
  else none

/-- A woken thread goes on. -/
def resume (c : CondVar τ) (t : τ) : Option (CondVar τ) :=
  if t ∈ c.woken then some { c with woken := c.woken.erase t } else none

/-- A thread wakes up without a signal. -/
def spurious (c : CondVar τ) (t : τ) : Option (CondVar τ) :=
  if t ∈ c.waiting then some ⟨c.waiting.erase t, t ::ₘ c.woken⟩ else none

theorem signal_eq_some {c c' : CondVar τ} {chosen : Multiset τ} (h : c.signal chosen = some c') :
    chosen ≤ c.waiting ∧ (chosen = 0 → c.waiting = 0) ∧
      c' = ⟨c.waiting - chosen, c.woken + chosen⟩ := by
  rw [signal, Option.ite_none_right_eq_some] at h
  exact ⟨h.1.1, h.1.2, (Option.some.inj h.2).symm⟩

theorem resume_eq_some {c c' : CondVar τ} {t : τ} (h : c.resume t = some c') :
    t ∈ c.woken ∧ c' = { c with woken := c.woken.erase t } := by
  rw [resume, Option.ite_none_right_eq_some] at h
  exact ⟨h.1, (Option.some.inj h.2).symm⟩

theorem spurious_eq_some {c c' : CondVar τ} {t : τ} (h : c.spurious t = some c') :
    t ∈ c.waiting ∧ c' = ⟨c.waiting.erase t, t ::ₘ c.woken⟩ := by
  rw [spurious, Option.ite_none_right_eq_some] at h
  exact ⟨h.1, (Option.some.inj h.2).symm⟩

/-! ## Who is there -/

theorem signal_total {c c' : CondVar τ} {chosen : Multiset τ} (h : c.signal chosen = some c') :
    c'.waiting + c'.woken = c.waiting + c.woken := by
  obtain ⟨hchosen, -, rfl⟩ := signal_eq_some h
  dsimp only
  rw [add_comm c.woken, ← add_assoc, Multiset.sub_add_cancel hchosen]

theorem resume_total {c c' : CondVar τ} {t : τ} (h : c.resume t = some c') :
    {t} + (c'.waiting + c'.woken) = c.waiting + c.woken := by
  obtain ⟨hmem, rfl⟩ := resume_eq_some h
  dsimp only
  rw [Multiset.singleton_add, ← Multiset.add_cons, Multiset.cons_erase hmem]

theorem spurious_total {c c' : CondVar τ} {t : τ} (h : c.spurious t = some c') :
    c'.waiting + c'.woken = c.waiting + c.woken := by
  obtain ⟨hmem, rfl⟩ := spurious_eq_some h
  dsimp only
  rw [Multiset.add_cons, ← Multiset.cons_add, Multiset.cons_erase hmem]

/-! ## What is covered -/

/-- A signal covers one more. -/
theorem Covers.signal {c c' : CondVar τ} {n : ℕ} {chosen : Multiset τ} (h : c.Covers n)
    (hsignal : c.signal chosen = some c') : c'.Covers (n + 1) := by
  obtain ⟨-, hempty, rfl⟩ := signal_eq_some hsignal
  intro hne
  have hwaiting : c.waiting ≠ 0 := by
    intro hzero
    simp [hzero] at hne
  have hchosen : 0 < chosen.card := Multiset.card_pos.mpr fun hzero ↦ hwaiting (hempty hzero)
  rw [Multiset.card_add]
  have hle := h hwaiting
  omega

/-- A thread that goes on covers one less. -/
theorem Covers.resume {c c' : CondVar τ} {n : ℕ} {t : τ} (h : c.Covers n)
    (hresume : c.resume t = some c') : c'.Covers (n - 1) := by
  obtain ⟨hmem, rfl⟩ := resume_eq_some hresume
  intro hne
  have hle := h hne
  rw [Multiset.card_erase_of_mem hmem]
  exact Nat.sub_le_sub_right hle 1

theorem Covers.spurious {c c' : CondVar τ} {n : ℕ} {t : τ} (h : c.Covers n)
    (hspurious : c.spurious t = some c') : c'.Covers n := by
  obtain ⟨hmem, rfl⟩ := spurious_eq_some hspurious
  intro _
  rw [Multiset.card_cons]
  exact (h fun hzero ↦ by simp [hzero] at hmem).trans (Nat.le_succ _)

end CondVar

end TinyCPlus.Library
