import Mathlib

/-!
# Handing out an amount in equal shares

The next of `n` receivers gets the rounded-down `n`-th part of what is left.  All
of it is handed out, and two shares differ by at most one.
-/

namespace TinyCPlus.Library

/-- The shares of `n` receivers. -/
def fairShares : ℕ → ℤ → List ℤ
  | 0, _ => []
  | n + 1, amount =>
      amount / (n + 1 : ℕ) :: fairShares n (amount - amount / (n + 1 : ℕ))

@[simp] theorem length_fairShares (n : ℕ) (amount : ℤ) : (fairShares n amount).length = n := by
  induction n generalizing amount with
  | zero => rfl
  | succ n ih => rw [fairShares, List.length_cons, ih]

theorem sum_fairShares {n : ℕ} (hn : n ≠ 0) (amount : ℤ) : (fairShares n amount).sum = amount := by
  induction n generalizing amount with
  | zero => exact absurd rfl hn
  | succ n ih =>
      cases n with
      | zero => simp [fairShares]
      | succ n =>
          rw [fairShares, List.sum_cons, ih (Nat.succ_ne_zero n)]
          exact add_sub_cancel _ _

/-- Between `q` and `q + 1` a head, every share is `q` or `q + 1`. -/
theorem mem_fairShares {n : ℕ} {amount q s : ℤ} (hlow : q * n ≤ amount)
    (hhigh : amount ≤ (q + 1) * n) (hs : s ∈ fairShares n amount) : q ≤ s ∧ s ≤ q + 1 := by
  induction n generalizing amount with
  | zero => cases hs
  | succ n ih =>
      have hpos : (0 : ℤ) < (n + 1 : ℕ) := by omega
      have hq : q ≤ amount / (n + 1 : ℕ) := (Int.le_ediv_iff_mul_le hpos).mpr hlow
      have hq1 : amount / (n + 1 : ℕ) ≤ q + 1 := by
        have hle := Int.ediv_le_ediv hpos hhigh
        rwa [Int.mul_ediv_cancel _ hpos.ne'] at hle
      rw [fairShares, List.mem_cons] at hs
      push_cast at hlow hhigh
      rcases hs with rfl | hs
      · exact ⟨hq, hq1⟩
      · rcases hq.eq_or_lt with heq | hlt
        · have hupper : amount < (amount / (n + 1 : ℕ) + 1) * (n + 1 : ℕ) :=
            Int.lt_mul_ediv_self_add hpos |>.trans_eq (by ring)
          rw [← heq] at hs hupper
          push_cast at hupper
          exact ih (by linarith) (by linarith) hs
        · have hequal : amount / (n + 1 : ℕ) = q + 1 := by omega
          have hlower := (Int.le_ediv_iff_mul_le hpos).mp hequal.ge
          push_cast at hlower
          rw [hequal] at hs
          exact ih (by linarith) (by linarith) hs

/-- Two shares differ by at most one. -/
theorem fairShares_sub_le {n : ℕ} {amount s t : ℤ} (hs : s ∈ fairShares n amount)
    (ht : t ∈ fairShares n amount) : s - t ≤ 1 := by
  have hpos : (0 : ℤ) < n := by
    cases n with
    | zero => cases hs
    | succ n => omega
  have hlow : amount / n * n ≤ amount := Int.ediv_mul_le amount hpos.ne'
  have hhigh : amount ≤ (amount / n + 1) * n := (Int.lt_ediv_add_one_mul_self amount hpos).le
  have hs' := mem_fairShares hlow hhigh hs
  have ht' := mem_fairShares hlow hhigh ht
  omega

end TinyCPlus.Library
