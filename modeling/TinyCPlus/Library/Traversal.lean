import Mathlib

/-!
# Traversals

The elements of a collection as computations: an element is computed when it is
taken, and then it may turn out to be dropped.  Filters and maps act on every
element; a fold takes the elements in order until it is done.
-/

namespace TinyCPlus.Library

/-- Elements that are computed when they are taken. -/
abbrev Traversal (m : Type → Type) (α : Type) : Type := List (m (Option α))

namespace Traversal

variable {m : Type → Type} [Monad m] {α β γ : Type}

/-- The elements of a list. -/
def ofList (xs : List α) : Traversal m α := xs.map fun x ↦ pure (some x)

/-- An element that a test accepts. -/
def accepted (p : α → m Bool) (taken : m (Option α)) : m (Option α) := do
  match ← taken with
  | some x => do if ← p x then pure (some x) else pure none
  | none => pure none

/-- The image of an element. -/
def image (f : α → m β) (taken : m (Option α)) : m (Option β) := do
  match ← taken with
  | some x => do
      let y ← f x
      pure (some y)
  | none => pure none

/-- The elements that a test accepts. -/
def filter (p : α → m Bool) (xs : Traversal m α) : Traversal m α := List.map (accepted p) xs

/-- The images of the elements. -/
def map (f : α → m β) (xs : Traversal m α) : Traversal m β := List.map (image f) xs

/-- Takes the elements in order; a step gives the next value and says whether it
was the last one. -/
def fold (step : γ → α → m (γ × Bool)) : γ → Traversal m α → m γ
  | acc, [] => pure acc
  | acc, taken :: rest => do
      match ← taken with
      | none => fold step acc rest
      | some x => do
          let (acc, last) ← step acc x
          if last then pure acc else fold step acc rest

/-- Does something with every element. -/
def forEach (f : α → m Unit) (xs : Traversal m α) : m Unit :=
  fold (fun _ x ↦ do
    f x
    pure ((), false)) () xs

/-- The number of elements. -/
def count (xs : Traversal m α) : m ℕ := fold (fun n _ ↦ pure (n + 1, false)) 0 xs

/-- The first element. -/
def first (xs : Traversal m α) : m (Option α) := fold (fun _ x ↦ pure (some x, true)) none xs

/-- A test accepts an element; no other is taken after it. -/
def any (p : α → m Bool) (xs : Traversal m α) : m Bool :=
  fold (fun b x ↦ do if ← p x then pure (true, true) else pure (b, false)) false xs

/-- A test accepts every element; none is taken after one that it rejects. -/
def all (p : α → m Bool) (xs : Traversal m α) : m Bool :=
  fold (fun b x ↦ do if ← p x then pure (b, false) else pure (false, true)) true xs

/-- Combines the elements from the left. -/
def reduce (f : γ → α → m γ) (init : γ) (xs : Traversal m α) : m γ :=
  fold (fun acc x ↦ do
    let acc ← f acc x
    pure (acc, false)) init xs

theorem filter_cons (p : α → m Bool) (taken : m (Option α)) (rest : Traversal m α) :
    filter p (taken :: rest) = accepted p taken :: filter p rest := rfl

theorem map_cons (f : α → m β) (taken : m (Option α)) (rest : Traversal m α) :
    map f (taken :: rest) = image f taken :: map f rest := rfl

@[simp] theorem fold_nil (step : γ → α → m (γ × Bool)) (acc : γ) :
    fold step acc ([] : Traversal m α) = pure acc := rfl

section Lawful

variable [LawfulMonad m]

theorem fold_ofList_cons (step : γ → α → m (γ × Bool)) (acc : γ) (x : α) (xs : List α) :
    fold step acc (ofList (x :: xs)) = (do
      let (acc, last) ← step acc x
      if last then pure acc else fold step acc (ofList xs)) := by
  rw [ofList, List.map_cons, fold, pure_bind]
  rfl

/-! ## Fusion -/

/-- A filter before a fold is a step that passes over elements. -/
theorem fold_filter (step : γ → α → m (γ × Bool)) (p : α → m Bool) (acc : γ)
    (xs : Traversal m α) :
    fold step acc (filter p xs) =
      fold (fun acc x ↦ do if ← p x then step acc x else pure (acc, false)) acc xs := by
  induction xs generalizing acc with
  | nil => rfl
  | cons taken rest ih =>
      rw [filter_cons, fold, fold, accepted, bind_assoc]
      refine bind_congr fun o ↦ ?_
      cases o with
      | none =>
          rw [pure_bind]
          exact ih acc
      | some x =>
          rw [bind_assoc]
          dsimp only
          rw [bind_assoc]
          refine bind_congr fun b ↦ ?_
          cases b with
          | false =>
              simp only [Bool.false_eq_true, if_false, pure_bind]
              exact ih acc
          | true =>
              simp only [if_true, pure_bind]
              refine bind_congr fun r ↦ ?_
              split
              · rfl
              · exact ih r.1

/-- A map before a fold is a step on the images. -/
theorem fold_map (step : γ → β → m (γ × Bool)) (f : α → m β) (acc : γ) (xs : Traversal m α) :
    fold step acc (map f xs) =
      fold (fun acc x ↦ do
        let y ← f x
        step acc y) acc xs := by
  induction xs generalizing acc with
  | nil => rfl
  | cons taken rest ih =>
      rw [map_cons, fold, fold, image, bind_assoc]
      refine bind_congr fun o ↦ ?_
      cases o with
      | none =>
          rw [pure_bind]
          exact ih acc
      | some x =>
          rw [bind_assoc]
          dsimp only
          rw [bind_assoc]
          refine bind_congr fun y ↦ ?_
          rw [pure_bind]
          refine bind_congr fun r ↦ ?_
          split
          · rfl
          · exact ih r.1

/-! ## Lists -/

/-- A filter without effects. -/
theorem fold_filter_pure (step : γ → α → m (γ × Bool)) (p : α → Bool) (acc : γ) (xs : List α) :
    fold step acc (filter (fun x ↦ pure (p x)) (ofList xs)) =
      fold step acc (ofList (xs.filter p)) := by
  rw [fold_filter]
  induction xs generalizing acc with
  | nil => rfl
  | cons x xs ih =>
      rw [fold_ofList_cons, pure_bind]
      cases hp : p x with
      | false =>
          rw [List.filter_cons_of_neg (by simp [hp])]
          simp only [Bool.false_eq_true, if_false, pure_bind]
          simpa only [pure_bind] using ih acc
      | true =>
          rw [List.filter_cons_of_pos (by simp [hp]), fold_ofList_cons]
          simp only [if_true]
          refine bind_congr fun r ↦ ?_
          split
          · rfl
          · simpa only [pure_bind] using ih r.1

/-- A map without effects. -/
theorem map_pure (f : α → β) (xs : List α) :
    map (m := m) (fun x ↦ pure (f x)) (ofList xs) = ofList (xs.map f) := by
  induction xs with
  | nil => rfl
  | cons x xs ih =>
      have hhead : image (m := m) (fun x ↦ pure (f x)) (pure (some x)) = pure (some (f x)) := by
        rw [image, pure_bind]
        exact pure_bind _ _
      rw [List.map_cons, ofList, List.map_cons, map_cons, hhead, ofList, List.map_cons]
      exact congrArg _ ih

theorem forEach_ofList (xs : List α) :
    forEach (m := m) (fun _ ↦ pure ()) (ofList xs) = pure () := by
  induction xs with
  | nil => rfl
  | cons x xs ih =>
      rw [forEach, fold_ofList_cons, pure_bind, pure_bind]
      simpa only [forEach, pure_bind, Bool.false_eq_true, if_false] using ih

theorem count_ofList (xs : List α) : count (m := m) (ofList xs) = pure xs.length := by
  have h (n : ℕ) : fold (fun n _ ↦ pure (n + 1, false)) n (ofList xs) =
      (pure (n + xs.length) : m ℕ) := by
    induction xs generalizing n with
    | nil => rfl
    | cons x xs ih =>
        rw [fold_ofList_cons, pure_bind, List.length_cons]
        simp only [Bool.false_eq_true, if_false]
        rw [ih, Nat.add_right_comm, Nat.add_assoc]
  rw [count, h, Nat.zero_add]

theorem first_ofList (xs : List α) : first (m := m) (ofList xs) = pure xs.head? := by
  cases xs with
  | nil => rfl
  | cons x xs =>
      rw [first, fold_ofList_cons, pure_bind]
      rfl

theorem any_ofList (p : α → Bool) (xs : List α) :
    any (m := m) (fun x ↦ pure (p x)) (ofList xs) = pure (xs.any p) := by
  induction xs with
  | nil => rfl
  | cons x xs ih =>
      rw [any, fold_ofList_cons, pure_bind, List.any_cons]
      cases p x with
      | false =>
          simp only [Bool.false_eq_true, if_false, pure_bind, Bool.false_or]
          simpa only [any, pure_bind] using ih
      | true =>
          simp only [if_true, pure_bind, Bool.true_or]

theorem all_ofList (p : α → Bool) (xs : List α) :
    all (m := m) (fun x ↦ pure (p x)) (ofList xs) = pure (xs.all p) := by
  induction xs with
  | nil => rfl
  | cons x xs ih =>
      rw [all, fold_ofList_cons, pure_bind, List.all_cons]
      cases p x with
      | false =>
          simp only [Bool.false_eq_true, if_false, pure_bind, if_true, Bool.false_and]
      | true =>
          simp only [if_true, pure_bind, Bool.false_eq_true, if_false, Bool.true_and]
          simpa only [all, pure_bind] using ih

theorem reduce_ofList (f : γ → α → γ) (init : γ) (xs : List α) :
    reduce (m := m) (fun acc x ↦ pure (f acc x)) init (ofList xs) = pure (xs.foldl f init) := by
  induction xs generalizing init with
  | nil => rfl
  | cons x xs ih =>
      rw [reduce, fold_ofList_cons, pure_bind, pure_bind, List.foldl_cons]
      simp only [Bool.false_eq_true, if_false]
      exact ih (f init x)

end Lawful

end Traversal

end TinyCPlus.Library
