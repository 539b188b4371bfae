import Mathlib

/-!
# What a number of threads hold

The threads `0, …, n - 1` each have a state, and `tally n f state` puts
together what `f` finds in them.
-/

namespace TinyCPlus.Library

variable {σ γ : Type*}

def tally (n : ℕ) (f : ℕ → σ → Multiset γ) (state : ℕ → σ) : Multiset γ :=
  ∑ w ∈ Finset.range n, f w (state w)

variable {n : ℕ} {f : ℕ → σ → Multiset γ} {state : ℕ → σ} {w : ℕ} {y : σ}

theorem mem_tally {a : γ} : a ∈ tally n f state ↔ ∃ w < n, a ∈ f w (state w) := by
  rw [tally, Multiset.mem_sum]
  simp only [Finset.mem_range]

theorem tally_eq_zero (h : ∀ w < n, f w (state w) = 0) : tally n f state = 0 :=
  Finset.sum_eq_zero fun w hw ↦ h w (Finset.mem_range.mp hw)

/-- One thread exchanges what it holds. -/
theorem tally_update (hw : w < n) :
    f w (state w) + tally n f (Function.update state w y) = f w y + tally n f state := by
  have hmem : w ∈ Finset.range n := Finset.mem_range.mpr hw
  rw [tally, tally, ← Finset.add_sum_erase _ _ hmem,
    ← Finset.add_sum_erase _ (fun w ↦ f w (state w)) hmem, Function.update_self]
  have hrest : ∑ v ∈ (Finset.range n).erase w, f v (Function.update state w y v) =
      ∑ v ∈ (Finset.range n).erase w, f v (state v) :=
    Finset.sum_congr rfl fun v hv ↦ by rw [Function.update_of_ne (Finset.ne_of_mem_erase hv)]
  rw [hrest, add_left_comm]

theorem tally_same (hw : w < n) (h : f w (state w) = f w y) :
    tally n f (Function.update state w y) = tally n f state :=
  add_left_cancel ((tally_update hw).trans (by rw [h]))

theorem tally_gain (hw : w < n) (h : f w (state w) = 0) :
    tally n f (Function.update state w y) = f w y + tally n f state := by
  rw [← tally_update hw, h, zero_add]

theorem tally_lose (hw : w < n) (h : f w y = 0) :
    tally n f state = f w (state w) + tally n f (Function.update state w y) := by
  rw [tally_update hw, h, zero_add]

end TinyCPlus.Library
