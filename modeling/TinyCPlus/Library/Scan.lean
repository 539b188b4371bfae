import Mathlib

/-!
# Linear scans over an indexed sequence

The two loops that walk an index while a test succeeds, upwards to a bound
and downwards to zero.  Over the elements of a list they are `takeWhile` from
the left and from the right.
-/

namespace TinyCPlus.Library

/-- `while (0 < n && p i) { i++; n--; }`, with `n` the distance to the bound. -/
def scanUp (p : ℕ → Bool) : ℕ → ℕ → ℕ
  | 0, i => i
  | n + 1, i => if p i then scanUp p n (i + 1) else i

/-- `while (i && p i) i--;` -/
def scanDown (p : ℕ → Bool) : ℕ → ℕ
  | 0 => 0
  | i + 1 => if p (i + 1) then scanDown p i else i + 1

/-- The upward scan runs to its bound exactly when the test never fails. -/
theorem scanUp_eq_add_iff (p : ℕ → Bool) (n i : ℕ) :
    scanUp p n i = i + n ↔ ∀ j, i ≤ j → j < i + n → p j = true := by
  induction n generalizing i with
  | zero =>
      simp only [scanUp, Nat.add_zero, true_iff]
      intro j hij hji
      omega
  | succ n ih =>
      have hbound : i + (n + 1) = i + 1 + n := by omega
      cases hi : p i with
      | false =>
          simp only [scanUp, hi, Bool.false_eq_true, if_false]
          refine ⟨fun h ↦ absurd h (by omega), fun h ↦ ?_⟩
          have hpi := h i (le_refl i) (by omega)
          simp [hi] at hpi
      | true =>
          simp only [scanUp, hi, if_true]
          rw [hbound, ih (i + 1)]
          constructor
          · intro h j hij hjn
            rcases Nat.eq_or_lt_of_le hij with rfl | hlt
            · exact hi
            · exact h j hlt hjn
          · intro h j hij hjn
            exact h j (by omega) hjn

variable {α : Type*}

/-- The prefix taken stops at the latest at the first failing element. -/
theorem length_takeWhile_le_of_not (q : α → Bool) (l : List α) (k : ℕ)
    (hk : k < l.length) (hq : q l[k] = false) :
    (l.takeWhile q).length ≤ k := by
  induction l generalizing k with
  | nil => simp at hk
  | cons a l ih =>
      cases k with
      | zero =>
          have ha : q a = false := hq
          simp [ha]
      | succ k =>
          rw [List.takeWhile_cons]
          split
          · exact Nat.succ_le_succ (ih k (by simpa using hk) hq)
          · simp

/-- The element right after the prefix taken fails the test. -/
theorem not_getElem_length_takeWhile (q : α → Bool) (l : List α)
    (h : (l.takeWhile q).length < l.length) :
    q (l[(l.takeWhile q).length]) = false := by
  induction l with
  | nil => simp at h
  | cons a l ih =>
      cases ha : q a with
      | false => simp [ha]
      | true =>
          have htail : (l.takeWhile q).length < l.length := by
            simpa [List.takeWhile_cons, ha] using h
          simpa [List.takeWhile_cons, ha] using ih htail

theorem dropWhile_take (q : α → Bool) (l : List α) (m : ℕ) :
    (l.take m).dropWhile q = (l.take m).drop (l.takeWhile q).length := by
  induction l generalizing m with
  | nil => simp
  | cons a l ih =>
      cases m with
      | zero => simp
      | succ m =>
          cases ha : q a with
          | false => simp [ha]
          | true => simpa [List.takeWhile_cons, ha] using ih m

/-- Scanning the elements of a list upwards is `takeWhile`. -/
theorem scanUp_eq_takeWhile (p : ℕ → Bool) (q : α → Bool) (l : List α) (i : ℕ)
    (h : ∀ (j : ℕ) (hj : j < l.length), p (i + j) = q l[j]) :
    scanUp p l.length i = i + (l.takeWhile q).length := by
  induction l generalizing i with
  | nil => rfl
  | cons a l ih =>
      have hhead : p i = q a := h 0 (by simp)
      have htail : scanUp p l.length (i + 1) =
          i + 1 + (l.takeWhile q).length := by
        apply ih
        intro j hj
        have hstep := h (j + 1) (by simpa using hj)
        simpa [Nat.add_comm, Nat.add_left_comm] using hstep
      rw [List.length_cons, scanUp, hhead, List.takeWhile_cons]
      split
      · rw [htail, List.length_cons]
        omega
      · simp

/-- Scanning the elements of a list downwards is `takeWhile` on its reversal. -/
theorem scanDown_eq_takeWhile (p : ℕ → Bool) (q : α → Bool) (l : List α)
    (h : ∀ (j : ℕ) (hj : j < l.length), p (j + 1) = q l[j]) :
    scanDown p l.length = l.length - (l.reverse.takeWhile q).length := by
  induction l using List.reverseRecOn with
  | nil => rfl
  | append_singleton l a ih =>
      have hlast : p (l.length + 1) = q a := by
        have hstep := h l.length (by simp)
        simpa using hstep
      have hinit : scanDown p l.length =
          l.length - (l.reverse.takeWhile q).length := by
        apply ih
        intro j hj
        have hstep := h j (by simp; omega)
        rwa [List.getElem_append_left hj] at hstep
      rw [List.length_append, List.length_singleton, scanDown, hlast,
        List.reverse_append, List.reverse_singleton, List.singleton_append,
        List.takeWhile_cons]
      split
      · rw [hinit, List.length_cons]
        omega
      · simp

end TinyCPlus.Library
