import Mathlib

/-!
# Ring buffers with free-running counters

A queue lies in `n` slots between two counters that go on modulo `m`.  When the number of slots
divides the modulus, the slots behind each other stay behind each other as a counter starts again
at zero.
-/

namespace TinyCPlus.Library

variable {α : Type*}

/-- The queue lies in the slots from the reading counter to the writing one. -/
structure RingHolds (n m : ℕ) (slots : List α) (read write : ℕ) (q : List α) : Prop where
  slots_length : slots.length = n
  read_lt : read < m
  length_le : q.length ≤ n
  write_eq : write = (read + q.length) % m
  get : ∀ {i : ℕ} {x : α}, q[i]? = some x → slots[(read + i) % n]? = some x

namespace RingHolds

variable {n m : ℕ} {slots : List α} {read write : ℕ} {x : α} {q : List α}

theorem nil (hslots : slots.length = n) (hread : read < m) :
    RingHolds n m slots read read [] where
  slots_length := hslots
  read_lt := hread
  length_le := Nat.zero_le n
  write_eq := (Nat.mod_eq_of_lt hread).symm
  get h := by simp at h

section

variable (h : RingHolds n m slots read write q)
include h

theorem write_mod (hnm : n ∣ m) : write % n = (read + q.length) % n := by
  rw [h.write_eq, Nat.mod_mod_of_dvd _ hnm]

/-- The difference of the counters, as they are stored, is the length. -/
theorem pending (hlt : n < m) : (write + (m - read)) % m = q.length := by
  have hread := h.read_lt
  have hlength := h.length_le
  rw [h.write_eq, Nat.mod_add_mod,
    show read + q.length + (m - read) = q.length + m by omega, Nat.add_mod_right,
    Nat.mod_eq_of_lt (by omega)]

theorem write_eq_read_iff (hlt : n < m) : read = write ↔ q = [] := by
  rw [← List.length_eq_zero_iff, ← h.pending hlt]
  have hread := h.read_lt
  constructor
  · rintro rfl
    rw [show read + (m - read) = m by omega, Nat.mod_self]
  · intro hzero
    rw [h.pending hlt] at hzero
    rw [h.write_eq, hzero, Nat.add_zero, Nat.mod_eq_of_lt hread]

/-- A free slot takes another element. -/
theorem push (hnm : n ∣ m) (hfree : q.length < n) :
    RingHolds n m (slots.set (write % n) x) read ((write + 1) % m) (q ++ [x]) where
  slots_length := by rw [List.length_set, h.slots_length]
  read_lt := h.read_lt
  length_le := by
    rw [List.length_append, List.length_singleton]
    exact hfree
  write_eq := by
    rw [h.write_eq, Nat.mod_add_mod, List.length_append, List.length_singleton, Nat.add_assoc]
  get {i y} hy := by
    have hn : 0 < n := by omega
    rcases lt_trichotomy i q.length with hi | rfl | hi
    · -- the slots of two places less than `n` apart are different
      rw [List.getElem?_append_left hi] at hy
      rw [h.write_mod hnm, List.getElem?_set_ne]
      · exact h.get hy
      · intro heq
        have hmod : read + q.length ≡ read + i [MOD n] := heq
        have hmod := Nat.ModEq.add_left_cancel' read hmod
        have hq : q.length % n = i % n := hmod
        rw [Nat.mod_eq_of_lt hfree, Nat.mod_eq_of_lt (hi.trans hfree)] at hq
        omega
    · rw [List.getElem?_concat_length] at hy
      rw [h.write_mod hnm, List.getElem?_set_self]
      · exact hy
      · rw [h.slots_length]
        exact Nat.mod_lt _ hn
    · rw [List.getElem?_eq_none (by simp; omega)] at hy
      cases hy

end

/-- The oldest element is in the slot of the reading counter. -/
theorem front (h : RingHolds n m slots read write (x :: q)) : slots[read % n]? = some x :=
  h.get (i := 0) rfl

theorem pop (hnm : n ∣ m) (h : RingHolds n m slots read write (x :: q)) :
    RingHolds n m slots ((read + 1) % m) write q where
  slots_length := h.slots_length
  read_lt := Nat.mod_lt _ (Nat.zero_lt_of_lt h.read_lt)
  length_le := (Nat.le_succ _).trans h.length_le
  write_eq := by
    rw [h.write_eq, Nat.mod_add_mod, List.length_cons, Nat.add_assoc, Nat.add_comm 1]
  get {i y} hy := by
    have hshift : ((read + 1) % m + i) % n = (read + (i + 1)) % n := by
      rw [Nat.add_mod, Nat.mod_mod_of_dvd _ hnm, ← Nat.add_mod, Nat.add_assoc, Nat.add_comm 1]
    rw [hshift]
    exact h.get (i := i + 1) hy

end RingHolds

end TinyCPlus.Library
