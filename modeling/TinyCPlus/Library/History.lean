import Mathlib

/-!
# Histories

A history grows at its end.  `Each P` says that every entry was allowed by the
entries before it.
-/

namespace TinyCPlus.Library

variable {α β : Type*}

/-- `P` holds of what stands before an entry and the entry, for every entry. -/
def Each (P : List α → α → Prop) (history : List α) : Prop :=
  ∀ pre x post, history = pre ++ x :: post → P pre x

theorem each_nil (P : List α → α → Prop) : Each P [] := fun pre x post h ↦ by simp at h

/-- An allowed entry may be added. -/
theorem Each.snoc {P : List α → α → Prop} {history : List α} {y : α} (h : Each P history)
    (hy : P history y) : Each P (history ++ [y]) := by
  intro pre x post hsplit
  rcases List.eq_nil_or_concat post with rfl | ⟨post, z, rfl⟩
  · obtain ⟨rfl, hxy⟩ := List.append_inj' hsplit rfl
    rwa [← (List.cons.inj hxy).1]
  · rw [List.concat_eq_append, ← List.cons_append, ← List.append_assoc] at hsplit
    exact h pre x post (List.append_inj' hsplit rfl).1

theorem filterMap_snoc (f : α → Option β) (history : List α) (y : α) :
    (history ++ [y]).filterMap f = history.filterMap f ++ (f y).toList := by
  rw [List.filterMap_append]
  cases h : f y <;> simp [h]

/-- Entries are named apart by a value that no two of them share. -/
theorem eq_of_nodup_filterMap {f : α → Option β} {history : List α}
    (h : (history.filterMap f).Nodup) {x y : α} (hx : x ∈ history) (hy : y ∈ history) {b : β}
    (hfx : f x = some b) (hfy : f y = some b) : x = y := by
  induction history with
  | nil => cases hx
  | cons z rest ih =>
      have hlater {u : α} (hu : u ∈ rest) (hfu : f u = some b) (hfz : f z = some b) : False := by
        rw [List.filterMap_cons_some hfz, List.nodup_cons] at h
        exact h.1 (List.mem_filterMap.mpr ⟨u, hu, hfu⟩)
      rcases List.mem_cons.mp hx with rfl | hxrest
      · rcases List.mem_cons.mp hy with rfl | hyrest
        · rfl
        · exact (hlater hyrest hfy hfx).elim
      · rcases List.mem_cons.mp hy with rfl | hyrest
        · exact (hlater hxrest hfx hfy).elim
        · exact ih (h.sublist ((List.sublist_cons_self z rest).filterMap f)) hxrest hyrest

theorem map_filterMap_sublist {γ : Type*} {f : α → Option β} {g : α → Option γ} {c : β → γ}
    (hfg : ∀ x b, f x = some b → g x = some (c b)) (history : List α) :
    ((history.filterMap f).map c).Sublist (history.filterMap g) := by
  induction history with
  | nil => exact List.Sublist.slnil
  | cons x rest ih =>
      cases hf : f x with
      | none =>
          rw [List.filterMap_cons_none hf]
          exact ih.trans ((List.sublist_cons_self x rest).filterMap g)
      | some b =>
          rw [List.filterMap_cons_some hf, List.filterMap_cons_some (hfg x b hf), List.map_cons]
          exact ih.cons_cons (c b)

end TinyCPlus.Library
