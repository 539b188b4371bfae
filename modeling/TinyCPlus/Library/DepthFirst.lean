import Mathlib.Data.List.Nodup
import Mathlib.Logic.Relation
import Mathlib.Tactic

/-!
# Depth-first visits

A visit takes the nodes of a list in turn.  A node that was not seen before is put into the order
behind everything that is visited from it.
-/

namespace TinyCPlus.Library

variable {α : Type*}

/-- `Visit next seen todo seen' order`: the nodes `todo` are visited where `seen` were seen before,
`seen'` are seen after, and `order` are the new ones. -/
inductive Visit (next : α → List α) : List α → List α → List α → List α → Prop
  | nil (seen : List α) : Visit next seen [] seen []
  | known {seen todo seen' order : List α} {a : α} (ha : a ∈ seen)
      (rest : Visit next seen todo seen' order) : Visit next seen (a :: todo) seen' order
  | fresh {seen seen₁ seen₂ todo o₁ o₂ : List α} {a : α} (ha : a ∉ seen)
      (inner : Visit next (a :: seen) (next a) seen₁ o₁)
      (rest : Visit next seen₁ todo seen₂ o₂) :
      Visit next seen (a :: todo) seen₂ (o₁ ++ a :: o₂)

/-- `b` can be reached from `a`. -/
def Reaches (next : α → List α) : α → α → Prop := Relation.ReflTransGen fun a b ↦ b ∈ next a

/-- `y` stands before `x`. -/
def Before (y x : α) (order : List α) : Prop := ∃ p q, order = p ++ x :: q ∧ y ∈ p

theorem Before.append_left {y x : α} {order : List α} (h : Before y x order) (p : List α) :
    Before y x (p ++ order) := by
  obtain ⟨p', q, rfl, hy⟩ := h
  exact ⟨p ++ p', q, by simp, List.mem_append_right p hy⟩

theorem Before.append_right {y x : α} {order : List α} (h : Before y x order) (q : List α) :
    Before y x (order ++ q) := by
  obtain ⟨p, q', rfl, hy⟩ := h
  exact ⟨p, q' ++ q, by simp, hy⟩

theorem before_of_mem {y x : α} {p q : List α} (hy : y ∈ p) (hx : x ∈ q) :
    Before y x (p ++ q) := by
  obtain ⟨q₁, q₂, rfl⟩ := List.append_of_mem hx
  exact ⟨p ++ q₁, q₂, by simp, List.mem_append_left q₁ hy⟩

namespace Visit

variable {next : α → List α} {seen todo seen' order : List α}

theorem append {todo' seen'' order' : List α} (h : Visit next seen todo seen' order)
    (h' : Visit next seen' todo' seen'' order') :
    Visit next seen (todo ++ todo') seen'' (order ++ order') := by
  induction h with
  | nil seen => exact h'
  | known ha _ ih => exact .known ha (ih h')
  | fresh ha inner _ _ ih =>
      rw [List.append_assoc, List.cons_append]
      exact .fresh ha inner (ih h')

theorem mem_seen_iff (h : Visit next seen todo seen' order) (x : α) :
    x ∈ seen' ↔ x ∈ seen ∨ x ∈ order := by
  induction h with
  | nil seen => simp
  | known _ _ ih => exact ih
  | fresh _ _ _ ih₁ ih₂ =>
      rw [ih₂, ih₁, List.mem_cons, List.mem_append, List.mem_cons]
      tauto

theorem todo_subset (h : Visit next seen todo seen' order) : ∀ a ∈ todo, a ∈ seen' := by
  induction h with
  | nil seen => simp
  | known ha rest ih =>
      intro b hb
      rcases List.mem_cons.mp hb with rfl | hb
      · exact (rest.mem_seen_iff b).mpr (.inl ha)
      · exact ih b hb
  | @fresh seen seen₁ seen₂ todo o₁ o₂ a ha inner rest ih₁ ih₂ =>
      intro b hb
      rcases List.mem_cons.mp hb with rfl | hb
      · have hseen₁ := (inner.mem_seen_iff b).mpr (.inl List.mem_cons_self)
        exact (rest.mem_seen_iff b).mpr (.inl hseen₁)
      · exact ih₂ b hb

/-- The nodes in the order are new, and each is there once. -/
theorem order_nodup (h : Visit next seen todo seen' order) :
    order.Nodup ∧ ∀ x ∈ order, x ∉ seen := by
  induction h with
  | nil seen => simp
  | known _ _ ih => exact ih
  | @fresh seen seen₁ seen₂ todo o₁ o₂ a ha inner rest ih₁ ih₂ =>
      obtain ⟨hnodup₁, hnew₁⟩ := ih₁
      obtain ⟨hnodup₂, hnew₂⟩ := ih₂
      have hold : ∀ x, x ∈ seen ∨ x ∈ o₁ ∨ x = a → x ∉ o₂ := by
        intro x hx hmem
        apply hnew₂ x hmem
        rw [inner.mem_seen_iff, List.mem_cons]
        tauto
      constructor
      · rw [List.nodup_append]
        refine ⟨hnodup₁, List.nodup_cons.mpr ⟨hold a (.inr (.inr rfl)), hnodup₂⟩, ?_⟩
        rintro x hx y hy rfl
        rcases List.mem_cons.mp hy with rfl | hy
        · exact hnew₁ x hx List.mem_cons_self
        · exact hold x (.inr (.inl hx)) hy
      · intro x hx hseen
        rcases List.mem_append.mp hx with hx | hx
        · exact hnew₁ x hx (List.mem_cons_of_mem a hseen)
        · rcases List.mem_cons.mp hx with rfl | hx
          · exact ha hseen
          · exact hold x (.inl hseen) hx

/-- Only what can be reached is visited. -/
theorem reaches (h : Visit next seen todo seen' order) :
    ∀ x ∈ order, ∃ a ∈ todo, Reaches next a x := by
  induction h with
  | nil seen => simp
  | known _ _ ih =>
      intro x hx
      obtain ⟨a, ha, hreach⟩ := ih x hx
      exact ⟨a, List.mem_cons_of_mem _ ha, hreach⟩
  | @fresh seen seen₁ seen₂ todo o₁ o₂ a ha inner rest ih₁ ih₂ =>
      intro x hx
      rcases List.mem_append.mp hx with hx | hx
      · obtain ⟨b, hb, hreach⟩ := ih₁ x hx
        exact ⟨a, List.mem_cons_self, .head hb hreach⟩
      · rcases List.mem_cons.mp hx with rfl | hx
        · exact ⟨x, List.mem_cons_self, .refl⟩
        · obtain ⟨b, hb, hreach⟩ := ih₂ x hx
          exact ⟨b, List.mem_cons_of_mem a hb, hreach⟩

/-- What is visited has its successors seen. -/
theorem next_subset (h : Visit next seen todo seen' order) :
    ∀ x ∈ order, ∀ y ∈ next x, y ∈ seen' := by
  induction h with
  | nil seen => simp
  | known _ _ ih => exact ih
  | @fresh seen seen₁ seen₂ todo o₁ o₂ a ha inner rest ih₁ ih₂ =>
      intro x hx y hy
      rcases List.mem_append.mp hx with hx | hx
      · exact (rest.mem_seen_iff y).mpr (.inl (ih₁ x hx y hy))
      · rcases List.mem_cons.mp hx with rfl | hx
        · exact (rest.mem_seen_iff y).mpr (.inl (inner.todo_subset y hy))
        · exact ih₂ x hx y hy

/-- Successors stand before a node, but for those on a cycle with it. -/
theorem before_or_reaches (h : Visit next seen todo seen' order) :
    ∀ x ∈ order, ∀ y ∈ next x, y ∈ order → Before y x order ∨ Reaches next y x := by
  induction h with
  | nil seen => simp
  | known _ _ ih => exact ih
  | @fresh seen seen₁ seen₂ todo o₁ o₂ a ha inner rest ih₁ ih₂ =>
      intro x hx y hy hmem
      -- what the visit of `a` leaves seen is not visited again
      have hlater : y ∈ seen₁ → y ∉ o₂ := fun hseen ho₂ ↦ rest.order_nodup.2 y ho₂ hseen
      rcases List.mem_append.mp hx with hx₁ | hx₁
      · have hseen₁ := inner.next_subset x hx₁ y hy
        rcases List.mem_append.mp hmem with hmem | hmem
        · exact (ih₁ x hx₁ y hy hmem).imp_left fun hbefore ↦ hbefore.append_right _
        · rcases List.mem_cons.mp hmem with rfl | hmem
          · obtain ⟨b, hb, hreach⟩ := inner.reaches x hx₁
            exact .inr (.head hb hreach)
          · exact absurd hmem (hlater hseen₁)
      · rcases List.mem_cons.mp hx₁ with rfl | hx₂
        · have hseen₁ := inner.todo_subset y hy
          rcases List.mem_append.mp hmem with hmem | hmem
          · exact .inl (before_of_mem hmem List.mem_cons_self)
          · rcases List.mem_cons.mp hmem with rfl | hmem
            · exact .inr .refl
            · exact absurd hmem (hlater hseen₁)
        · have hsplit : o₁ ++ a :: o₂ = (o₁ ++ [a]) ++ o₂ := by simp
          rcases List.mem_append.mp hmem with hmem | hmem
          · exact .inl (before_of_mem hmem (List.mem_cons_of_mem a hx₂))
          · rcases List.mem_cons.mp hmem with rfl | hmem
            · left
              rw [hsplit]
              exact before_of_mem (List.mem_append_right o₁ (List.mem_singleton_self y)) hx₂
            · rw [hsplit]
              exact (ih₂ x hx₂ y hy hmem).imp_left fun hbefore ↦ hbefore.append_left _

/-- A set of nodes with all their successors. -/
def Closed (next : α → List α) (seen : List α) : Prop := ∀ x ∈ seen, ∀ y ∈ next x, y ∈ seen

theorem closed (h : Visit next seen todo seen' order) (hseen : Closed next seen) :
    Closed next seen' := by
  intro x hx y hy
  rcases (h.mem_seen_iff x).mp hx with hx | hx
  · exact (h.mem_seen_iff y).mpr (.inl (hseen x hx y hy))
  · exact h.next_subset x hx y hy

theorem Closed.mem_of_reaches (hseen : Closed next seen) {a x : α} (ha : a ∈ seen)
    (h : Reaches next a x) : x ∈ seen := by
  induction h with
  | refl => exact ha
  | tail _ hy ih => exact hseen _ ih _ hy

/-- A visit behind a closed set takes what can be reached and is not in the set. -/
theorem mem_order_iff (h : Visit next seen todo seen' order) (hseen : Closed next seen) (x : α) :
    x ∈ order ↔ x ∉ seen ∧ ∃ a ∈ todo, Reaches next a x := by
  constructor
  · intro hx
    exact ⟨h.order_nodup.2 x hx, h.reaches x hx⟩
  · rintro ⟨hx, a, ha, hreach⟩
    have hmem := (h.closed hseen).mem_of_reaches (h.todo_subset a ha) hreach
    exact ((h.mem_seen_iff x).mp hmem).resolve_left hx

end Visit

end TinyCPlus.Library
