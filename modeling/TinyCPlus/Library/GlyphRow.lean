import Mathlib

/-!
# Rows of narrow and wide glyphs

A glyph takes one position of a row or two; the second one is its tail.  A glyph that
is written over one half of a wide glyph erases the other half, so the halves of a row
stay together, and every glyph that the new one does not touch stays.
-/

namespace TinyCPlus.Library

/-- What stands at a position of a row. -/
inductive GlyphCell (γ : Type*) where
  | glyph (g : γ) (width : ℕ)
  | tail
  | erased
deriving DecidableEq

namespace GlyphRow

variable {γ : Type*} [DecidableEq γ]

/-- The row after a glyph of the given width has been written at `x`. -/
def overwrite (row : ℕ → GlyphCell γ) (x : ℕ) (g : γ) (width : ℕ) : ℕ → GlyphCell γ :=
  fun i ↦
    if i = x then .glyph g width
    else if i = x + 1 ∧ width = 2 then .tail
    else if i + 1 = x ∧ row x = .tail then .erased
    else if i = x + width ∧ row i = .tail then .erased
    else row i

/-- Every wide glyph has its tail behind it, and every tail is behind a wide glyph. -/
structure Whole (row : ℕ → GlyphCell γ) : Prop where
  width : ∀ {i g w}, row i = .glyph g w → w = 1 ∨ w = 2
  wide : ∀ {i g}, row i = .glyph g 2 → row (i + 1) = .tail
  tail : ∀ {i}, row i = .tail → ∃ j g, i = j + 1 ∧ row j = .glyph g 2

variable {row : ℕ → GlyphCell γ} {x width : ℕ} {g : γ}

omit [DecidableEq γ] in
theorem Whole.glyph_before_tail (h : Whole row) {i w : ℕ} {g' : γ} (htail : row (i + 1) = .tail)
    (hglyph : row i = .glyph g' w) : w = 2 := by
  obtain ⟨j, g'', hj, hwide⟩ := h.tail htail
  obtain rfl := Nat.succ.inj hj
  rw [hglyph] at hwide
  injection hwide

@[simp] theorem overwrite_self : overwrite row x g width x = .glyph g width := if_pos rfl

/-- A glyph that the new one does not touch stays. -/
theorem overwrite_keeps (h : Whole row) {i w : ℕ} {g' : γ} (hglyph : row i = .glyph g' w)
    (hapart : i + w ≤ x ∨ x + width ≤ i) (hwidth : width = 1 ∨ width = 2) :
    overwrite row x g width i = .glyph g' w := by
  have hpos := h.width hglyph
  have hfirst : ¬ i = x := by omega
  have hsecond : ¬ (i = x + 1 ∧ width = 2) := by omega
  have hbefore : ¬ (i + 1 = x ∧ row x = .tail) := by
    rintro ⟨rfl, htail⟩
    have hwide := h.glyph_before_tail htail hglyph
    omega
  have hafter : ¬ (i = x + width ∧ row i = .tail) := by
    rintro ⟨-, htail⟩
    rw [hglyph] at htail
    cases htail
  rw [overwrite, if_neg hfirst, if_neg hsecond, if_neg hbefore, if_neg hafter, hglyph]

theorem overwrite_glyph {i w : ℕ} {g' : γ} (h : overwrite row x g width i = .glyph g' w) :
    (i = x ∧ g' = g ∧ w = width) ∨
      (i ≠ x ∧ ¬ (i = x + 1 ∧ width = 2) ∧ ¬ (i + 1 = x ∧ row x = .tail) ∧
        row i = .glyph g' w) := by
  rw [overwrite] at h
  split at h
  · rename_i hx
    injection h with hg hw
    exact .inl ⟨hx, hg.symm, hw.symm⟩
  · split at h
    · cases h
    · split at h
      · cases h
      · split at h
        · cases h
        · exact .inr ⟨‹_›, ‹_›, ‹_›, h⟩

theorem overwrite_tail {i : ℕ} (h : overwrite row x g width i = .tail) :
    (i = x + 1 ∧ width = 2) ∨
      (i ≠ x ∧ ¬ (i = x + 1 ∧ width = 2) ∧ i ≠ x + width ∧ row i = .tail) := by
  rw [overwrite] at h
  split at h
  · cases h
  · split at h
    · exact .inl ‹_›
    · split at h
      · cases h
      · split at h
        · cases h
        · rename_i hx hsecond _ hafter
          exact .inr ⟨hx, hsecond, fun hi ↦ hafter ⟨hi, h⟩, h⟩

theorem Whole.overwrite (h : Whole row) (hwidth : width = 1 ∨ width = 2) :
    Whole (overwrite row x g width) := by
  constructor
  · intro i g' w hi
    rcases overwrite_glyph hi with ⟨-, -, rfl⟩ | ⟨-, -, -, hold⟩
    · exact hwidth
    · exact h.width hold
  · intro i g' hi
    rcases overwrite_glyph hi with ⟨rfl, -, hw⟩ | ⟨hx, hsecond, hbefore, hold⟩
    · rw [GlyphRow.overwrite, if_neg (by omega), if_pos ⟨rfl, hw.symm⟩]
    · have htail := h.wide hold
      have hnext : i + 1 ≠ x := fun he ↦ hbefore ⟨he, he ▸ htail⟩
      rw [GlyphRow.overwrite, if_neg hnext, if_neg (by omega), if_neg, if_neg, htail]
      · rintro ⟨hi, -⟩
        omega
      · rintro ⟨hi, hxt⟩
        rw [← hi] at hxt
        obtain ⟨j, g'', hj, hwide⟩ := h.tail hxt
        obtain rfl := Nat.succ.inj hj
        rw [htail] at hwide
        cases hwide
  · intro i hi
    rcases overwrite_tail hi with ⟨rfl, hw⟩ | ⟨hx, hsecond, hend, hold⟩
    · exact ⟨x, g, rfl, hw ▸ overwrite_self⟩
    · obtain ⟨j, g', rfl, hwide⟩ := h.tail hold
      refine ⟨j, g', rfl, overwrite_keeps h hwide ?_ hwidth⟩
      omega

end GlyphRow

end TinyCPlus.Library
